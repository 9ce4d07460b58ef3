/-
  Sylar.Log.DateTime — dates as text: `Time2Str` (sylar/util.cpp lines 111-117) and the date
  item of a formatter (sylar/log.cpp lines 144-163), with the 64 bytes that both let strftime
  fill.

  A byte of the buffer is `none` until it is defined, and so is a struct tm. What localtime_r
  and strftime compute is the C library's (`Libc`). Where the text and its terminator do not
  fit, strftime returns 0 and leaves every byte undefined; neither caller looks at what the
  two functions return.

  Proved (`expands_iff`): the text is the whole expansion of the format, with no undefined
  byte read, exactly when localtime_r knows the time and the expansion is shorter than the
  buffer; a formatter prints its dates so exactly when all of them are.
-/

import Sylar.Lib.Except
import Sylar.Log.Formatter
import Mathlib.Data.List.TakeWhile

namespace Sylar.Log

/-! ## The C library -/

/-- What a `const char *` points to, up to the terminator. -/
structure CString where
  chars : List Char
  no_nul : '\x00' ∉ chars

def c_str (s : String) : CString where
  chars := s.toList.takeWhile (· ≠ '\x00')
  no_nul := fun h => by simpa using List.mem_takeWhile_imp h

theorem chars_c_str {s : String} (h : '\x00' ∉ s.toList) : (c_str s).chars = s.toList :=
  List.takeWhile_eq_self_iff.mpr fun _ hc => decide_eq_true (ne_of_mem_of_not_mem hc h)

def CString.text (s : CString) : String := String.ofList s.chars

/-- `localtime_r` gives none where it returns NULL, and `expand` is what strftime would write
    to a buffer without bounds. -/
structure Libc (Tm : Type) where
  localtime_r : Int → Option Tm
  expand : CString → Tm → CString

inductive BadRead where
  | undefinedTm
  | undefinedByte
  | outOfBounds
  deriving DecidableEq, Repr

/-- `char buf[64]`. -/
structure Buffer where
  bytes : List (Option Char)
  size : bytes.length = 64

namespace Buffer

def undefined : Buffer := ⟨List.replicate 64 none, List.length_replicate⟩

/-- The text with its terminator, at the front. -/
def store (buf : Buffer) (text : CString) (h : text.chars.length < 64) : Buffer where
  bytes := text.chars.map some ++ some '\x00' :: buf.bytes.drop (text.chars.length + 1)
  size := by
    rw [List.length_append, List.length_map, List.length_cons, List.length_drop, buf.size]
    omega

/-- The bytes up to the terminator. -/
def readFrom : List (Option Char) → Except BadRead (List Char)
  | [] => .error .outOfBounds
  | none :: _ => .error .undefinedByte
  | some c :: bytes => if c = '\x00' then .ok [] else (c :: ·) <$> readFrom bytes

/-- The buffer as a `const char *`. -/
def read (buf : Buffer) : Except BadRead String := String.ofList <$> readFrom buf.bytes

end Buffer

variable {Tm : Type} (C : Libc Tm)

/-- `strftime(buf, sizeof buf, format, &tm)`. -/
def Libc.strftime (buf : Buffer) (format : CString) (tm : Option Tm) : Except BadRead (Nat × Buffer) :=
  match tm with
  | none => .error .undefinedTm
  | some tm =>
    if h : (C.expand format tm).chars.length < 64 then
      .ok ((C.expand format tm).chars.length, buf.store (C.expand format tm) h)
    else .ok (0, .undefined)

/-! ## The two callers -/

/-- The time through localtime_r and strftime into a fresh buffer, read as a string. -/
def timeText (time : Int) (format : String) : Except BadRead String := do
  let tm := C.localtime_r time
  let (_, buf) ← C.strftime .undefined (c_str format) tm
  buf.read

def Time2Str (ts : Int) (format : String) : Except BadRead String := timeText C ts format

/-- `FormatItem::format`. -/
def FormatItem.print (event : LogEvent) : FormatItem → Except BadRead String
  | .DateTime m_format => timeText C event.m_time m_format
  | item => .ok (item.format (fun _ _ => "") event)

/-- `LogFormatter::format`. -/
def LogFormatter.print (self : LogFormatter) (event : LogEvent) : Except BadRead String :=
  self.m_items.foldlM (fun ss formatItem => (ss ++ ·) <$> formatItem.print C event) ""

/-! ## Whole expansions -/

/-- All that strftime has to say. -/
def Libc.expansion (format : String) (time : Int) : Option String :=
  (C.localtime_r time).map fun tm => (C.expand (c_str format) tm).text

/-- The time is one that localtime_r knows, and the expansion leaves room for the terminator. -/
def Fits (format : String) (time : Int) : Prop := ∃ text ∈ C.expansion format time, text.length < 64

/-- The text is all of the expansion. -/
def Expands (format : String) (time : Int) (text : Except BadRead String) : Prop :=
  ∃ full ∈ C.expansion format time, text = .ok full

/-- Every date of the formatter is printed with all of its expansion. -/
def PrintsDates (self : LogFormatter) (event : LogEvent) : Prop :=
  ∃ strftime : String → Int → String,
    (∀ m_format ∈ dateFormats self.m_items, strftime m_format event.m_time ∈ C.expansion m_format event.m_time) ∧
    self.print C event = .ok (self.format strftime event)

namespace Buffer

theorem readFrom_store {text : List Char} (h : '\x00' ∉ text) (rest : List (Option Char)) :
    readFrom (text.map some ++ some '\x00' :: rest) = .ok text := by
  induction text with
  | nil => rfl
  | cons c text ih =>
    obtain ⟨hc, htext⟩ := not_or.mp (mt List.mem_cons.mpr h)
    rw [List.map_cons, List.cons_append, readFrom, if_neg (Ne.symm hc), ih htext]
    rfl

theorem read_store (buf : Buffer) (text : CString) (h : text.chars.length < 64) :
    (buf.store text h).read = .ok text.text := by
  rw [read, store, readFrom_store text.no_nul]
  rfl

end Buffer

theorem length_text (s : CString) : s.text.length = s.chars.length := String.length_ofList

/-- The three outcomes. -/
theorem timeText_eq (time : Int) (format : String) :
    timeText C time format =
      match C.expansion format time with
      | none => .error .undefinedTm
      | some full => if full.length < 64 then .ok full else .error .undefinedByte := by
  unfold timeText Libc.expansion Libc.strftime
  cases C.localtime_r time with
  | none => rfl
  | some tm =>
    simp only [Option.map_some, length_text]
    split
    · next h => exact Buffer.read_store _ _ h
    · rfl

theorem timeText_iff (time : Int) (format text : String) :
    timeText C time format = .ok text ↔ text ∈ C.expansion format time ∧ text.length < 64 := by
  rw [timeText_eq]
  cases C.expansion format time with
  | none => exact ⟨nofun, fun h => nomatch h.1⟩
  | some full =>
    dsimp only
    constructor
    · intro h
      split at h
      · next hlen =>
        cases h
        exact ⟨rfl, hlen⟩
      · cases h
    · rintro ⟨hfull, hlen⟩
      cases hfull
      rw [if_pos hlen]

theorem expands_timeText_iff (format : String) (time : Int) :
    Expands C format time (timeText C time format) ↔ Fits C format time := by
  constructor
  · rintro ⟨full, hfull, htext⟩
    exact ⟨full, hfull, ((timeText_iff C time format full).mp htext).2⟩
  · rintro ⟨full, hfull, hlen⟩
    exact ⟨full, hfull, (timeText_iff C time format full).mpr ⟨hfull, hlen⟩⟩

/-! ## Formatters -/

section Formatters

variable {C} {event : LogEvent} {items : List FormatItem}

/-- An item that prints anything prints a date that fits. -/
theorem fits_of_print {item : FormatItem} {text : String} (h : item.print C event = .ok text) :
    ∀ m_format ∈ item.date?, Fits C m_format event.m_time := by
  cases item with
  | DateTime m_format =>
    intro m_format' hf
    cases hf
    exact ⟨text, (timeText_iff C event.m_time m_format text).mp h⟩
  | _ => exact nofun

/-- The expansions, where there are any. -/
def Libc.printed (C : Libc Tm) (format : String) (time : Int) : String := (C.expansion format time).getD ""

theorem print_of_fits {item : FormatItem} (h : ∀ m_format ∈ item.date?, Fits C m_format event.m_time) :
    item.print C event = .ok (item.format C.printed event) := by
  cases item with
  | DateTime m_format =>
    obtain ⟨text, htext, hlen⟩ := h m_format rfl
    have hprinted : C.printed m_format event.m_time = text := by
      rw [Libc.printed, Option.mem_def.mp htext, Option.getD_some]
    rw [FormatItem.print, FormatItem.format, hprinted]
    exact (timeText_iff C event.m_time m_format text).mpr ⟨htext, hlen⟩
  | _ => rfl

theorem fits_of_foldlM {ss out : String}
    (h : items.foldlM (fun ss formatItem => (ss ++ ·) <$> formatItem.print C event) ss = .ok out) :
    ∀ m_format ∈ dateFormats items, Fits C m_format event.m_time := by
  induction items generalizing ss with
  | nil => exact nofun
  | cons item items ih =>
    rw [List.foldlM_cons] at h
    obtain ⟨ss', hitem, hrest⟩ := Except.bind_eq_ok.mp h
    intro m_format hf
    obtain ⟨item', hin, hdate⟩ := List.mem_filterMap.mp hf
    rcases List.mem_cons.mp hin with rfl | hin
    · cases hprint : item'.print C event with
      | ok text => exact fits_of_print hprint m_format hdate
      | error e =>
        rw [hprint] at hitem
        cases hitem
    · exact ih hrest m_format (List.mem_filterMap.mpr ⟨item', hin, hdate⟩)

theorem foldlM_of_fits (h : ∀ m_format ∈ dateFormats items, Fits C m_format event.m_time) (ss : String) :
    items.foldlM (fun ss formatItem => (ss ++ ·) <$> formatItem.print C event) ss =
      .ok (items.foldl (fun ss formatItem => ss ++ formatItem.format C.printed event) ss) := by
  induction items generalizing ss with
  | nil => rfl
  | cons item items ih =>
    have hitem := print_of_fits fun m_format hf => h m_format (List.mem_filterMap.mpr ⟨item, .head _, hf⟩)
    have hrest : ∀ m_format ∈ dateFormats items, Fits C m_format event.m_time := by
      intro m_format hf
      obtain ⟨item', hin, hdate⟩ := List.mem_filterMap.mp hf
      exact h m_format (List.mem_filterMap.mpr ⟨item', .tail _ hin, hdate⟩)
    rw [List.foldlM_cons, List.foldl_cons, hitem]
    exact ih hrest (ss ++ item.format C.printed event)

theorem printed_mem {format : String} {time : Int} (h : Fits C format time) :
    C.printed format time ∈ C.expansion format time := by
  obtain ⟨text, htext, -⟩ := h
  rw [Libc.printed, Option.mem_def.mp htext]
  rfl

theorem printsDates_iff (self : LogFormatter) :
    PrintsDates C self event ↔ ∀ m_format ∈ dateFormats self.m_items, Fits C m_format event.m_time := by
  constructor
  · rintro ⟨strftime, -, hprint⟩
    exact fits_of_foldlM hprint
  · intro h
    exact ⟨C.printed, fun m_format hf => printed_mem (h m_format hf), foldlM_of_fits h ""⟩

/-- The pattern `%d{fmt}`. -/
theorem printsDates_dateWith (past : Char) {fmt : String} (h : '}' ∉ fmt.toList) :
    PrintsDates C (LogFormatter.init past (Parts.pattern [.dateWith fmt])) event ↔
      Fits C (Part.effective fmt) event.m_time := by
  have hwf : Parts.WellFormed [.dateWith fmt] := ⟨h, nofun, trivial⟩
  have hacc : (LogFormatter.init past (Parts.pattern [.dateWith fmt])).m_error = false := by
    rw [← Bool.not_eq_true, init_error hwf]
    exact fun hlast => nomatch hlast.1
  have hjoined : Parts.joined [.dateWith fmt] = Part.effective fmt :=
    congrArg Part.effective (String.join_cons.trans String.append_empty)
  rw [printsDates_iff, (init_items hwf hacc).2, hjoined]
  exact List.forall_mem_singleton

end Formatters

theorem expands_iff :
    (∀ ts format, Expands C format ts (Time2Str C ts format) ↔ Fits C format ts) ∧
    (∀ str event, Expands C (Part.effective str) event.m_time ((DateTimeFormatItem str).print C event) ↔
      Fits C (Part.effective str) event.m_time) ∧
    ∀ (self : LogFormatter) event,
      PrintsDates C self event ↔ ∀ m_format ∈ dateFormats self.m_items, Fits C m_format event.m_time :=
  ⟨fun ts format => expands_timeText_iff C format ts,
    fun str event => expands_timeText_iff C (Part.effective str) event.m_time,
    fun self _ => printsDates_iff self⟩

/-! ## A format that does not fit -/

/-- A format without conversions, copied. -/
def plainLibc : Libc Unit where
  localtime_r _ := some ()
  expand format _ := format

def longFormat : String := String.ofList (List.replicate 64 'x')

theorem longFormat_not_fits : ¬ Fits plainLibc longFormat 0 := by
  rintro ⟨text, htext, hlen⟩
  have hchars : longFormat.toList = List.replicate 64 'x' := String.toList_ofList
  have hno_nul : '\x00' ∉ longFormat.toList := by
    rw [hchars, List.mem_replicate]
    exact fun h => absurd h.2 (by decide)
  have hlength : text.length = (c_str longFormat).chars.length := by
    rw [← Option.some_inj.mp htext]
    exact length_text _
  rw [hlength, chars_c_str hno_nul, hchars, List.length_replicate] at hlen
  exact absurd hlen (lt_irrefl 64)

theorem long_format_lost : ¬ Expands plainLibc longFormat 0 (Time2Str plainLibc 0 longFormat) :=
  (expands_timeText_iff plainLibc longFormat 0).not.mpr longFormat_not_fits

end Sylar.Log
