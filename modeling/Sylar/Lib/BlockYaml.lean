/-
  Sylar.Lib.BlockYaml — a small YAML: nodes of scalars, sequences and maps with string
  keys, printed in block style with explicit keys, and a loader for what is printed.

      - ab          ? key
      - - 1         : - 1
        - ~           - 2

  `load_emit`: loading what is printed of a node gives the node. Texts outside the printed
  form are refused, apart from the empty one and the ways to write null.
-/

import Mathlib.Data.String.Basic

namespace BlockYaml

inductive Node where
  | null
  | scalar (text : String)
  | sequence (nodes : List Node)
  | map (entries : List (String × Node))
  deriving Repr

/-- Induction over the members of a node. -/
@[elab_as_elim]
theorem Node.ind {P : Node → Prop} (null : P .null) (scalar : ∀ text, P (.scalar text))
    (sequence : ∀ nodes, (∀ node ∈ nodes, P node) → P (.sequence nodes))
    (map : ∀ entries, (∀ e ∈ entries, P e.2) → P (.map entries)) (node : Node) : P node := by
  refine @Node.rec P (fun nodes => ∀ node ∈ nodes, P node) (fun entries => ∀ e ∈ entries, P e.2) (fun e => P e.2)
    null scalar sequence map ?_ ?_ ?_ ?_ ?_ node
  · nofun
  · intro first nodes hfirst hnodes node hnode
    rcases List.mem_cons.mp hnode with rfl | hnode
    · exact hfirst
    · exact hnodes node hnode
  · nofun
  · intro first entries hfirst hentries e he
    rcases List.mem_cons.mp he with rfl | he
    · exact hfirst
    · exact hentries e he
  · intro key node hnode
    exact hnode

abbrev Line := List Char

/-! ## Scalars -/

/-- A double-quoted text after its opening quote. -/
def escape : Line → Line
  | [] => ['"']
  | c :: s =>
    if c = '"' ∨ c = '\\' then '\\' :: c :: escape s
    else if c = '\n' then '\\' :: 'n' :: escape s
    else c :: escape s

def unescape : Line → Option Line
  | [] => none
  | c :: s =>
    if c = '"' then if s = [] then some [] else none
    else if c = '\\' then
      match s with
      | [] => none
      | e :: s => (unescape s).map ((if e = 'n' then '\n' else e) :: ·)
    else (unescape s).map (c :: ·)

def nulls : List Line := [[], "~".toList, "null".toList, "Null".toList, "NULL".toList]

/-- A word or a decimal number, written without quotes. -/
def isPlain : Line → Bool
  | '-' :: c :: s => (c :: s).all Char.isAlphanum
  | s => s.all Char.isAlphanum && !nulls.contains s

def scalarLine (s : Line) : Line := if isPlain s then s else '"' :: escape s

def loadScalar (l : Line) : Option Node :=
  if nulls.contains l then some .null
  else if l = "[]".toList then some (.sequence [])
  else if l = ['\x7b', '\x7d'] then some (.map [])
  else if isPlain l then some (.scalar (String.ofList l))
  else match l with
    | '"' :: s => (unescape s).map fun s => .scalar (String.ofList s)
    | _ => none

theorem unescape_escape (s : Line) : unescape (escape s) = some s := by
  induction s with
  | nil => rfl
  | cons c s ih =>
    unfold escape
    split
    · rename_i h
      rcases h with rfl | rfl <;> simp [unescape, ih]
    · rename_i h
      obtain ⟨hq, hb⟩ := not_or.mp h
      split
      · rename_i hn
        simp [unescape, ih, hn]
      · unfold unescape
        simp [ih, hq, hb]

theorem newline_escape (s : Line) : '\n' ∉ escape s := by
  induction s with
  | nil => decide
  | cons c s ih =>
    unfold escape
    split
    · rename_i h
      rcases h with rfl | rfl <;> simp [ih]
    · split
      · simp [ih]
      · rename_i hn
        simp [ih, Ne.symm hn]

theorem alphanum_of_plain {s : Line} (h : isPlain s) : ∀ c ∈ s, c.isAlphanum ∨ c = '-' := by
  unfold isPlain at h
  split at h
  · rename_i c s
    intro a ha
    rcases List.mem_cons.mp ha with rfl | ha
    · exact .inr rfl
    · exact .inl (List.all_eq_true.mp h a ha)
  · intro a ha
    exact .inl (List.all_eq_true.mp (Bool.and_eq_true_iff.mp h).1 a ha)

theorem newline_scalarLine (s : Line) : '\n' ∉ scalarLine s := by
  unfold scalarLine
  split
  · intro hmem
    rename_i h
    rcases alphanum_of_plain h _ hmem with h | h <;> revert h <;> decide
  · simp [newline_escape]

theorem plain_not_null {s : Line} (h : isPlain s) : nulls.contains s = false := by
  unfold isPlain at h
  split at h
  · rfl
  · simpa using (Bool.and_eq_true_iff.mp h).2

/-- A decimal number is plain. -/
theorem isPlain_digits {s : Line} (hne : s ≠ []) (h : ∀ c ∈ s, c.isDigit) : isPlain s := by
  have hall : s.all Char.isAlphanum := List.all_eq_true.mpr fun c hc => by simp [Char.isAlphanum, h c hc]
  have hnot : nulls.all (fun l => l.isEmpty || !l.all Char.isDigit) = true := by rfl
  have hnull : nulls.contains s = false := by
    by_contra hc
    have hs := List.all_eq_true.mp hnot s (by simpa using hc)
    simp [List.all_eq_true.mpr h, hne] at hs
  unfold isPlain
  split
  · exact absurd (h '-' (.head _)) (by decide)
  · rw [hall, hnull]
    rfl

theorem isPlain_minus {s : Line} (hne : s ≠ []) (h : ∀ c ∈ s, c.isDigit) : isPlain ('-' :: s) := by
  obtain ⟨c, s, rfl⟩ := List.exists_cons_of_ne_nil hne
  exact List.all_eq_true.mpr fun c hc => by simp [Char.isAlphanum, h c hc]

theorem loadScalar_scalarLine (s : Line) : loadScalar (scalarLine s) = some (.scalar (String.ofList s)) := by
  unfold scalarLine
  split
  · rename_i h
    have hnot : ∀ c, c ∈ s → c ≠ '[' ∧ c ≠ '\x7b' := by
      intro c hc
      constructor <;> rintro rfl <;> rcases alphanum_of_plain h _ hc with h | h <;> revert h <;> decide
    have hseq : s ≠ "[]".toList := fun e => (hnot '[' (e ▸ by decide)).1 rfl
    have hmap : s ≠ ['\x7b', '\x7d'] := fun e => (hnot '\x7b' (e ▸ by decide)).2 rfl
    unfold loadScalar
    rw [plain_not_null h, if_neg (by decide), if_neg hseq, if_neg hmap, if_pos h]
  · have hplain : isPlain ('"' :: escape s) = false := by simp [isPlain]
    have hnull : nulls.contains ('"' :: escape s) = false := by simp [nulls]
    unfold loadScalar
    rw [hnull, if_neg (by decide), if_neg (by simp), if_neg (by simp), hplain, if_neg (by decide)]
    simp [unescape_escape]

/-! ## Blocks -/

/-- Lines under a mark: it stands before the first, the others are indented. -/
def block (mark : Char) : List Line → List Line
  | [] => []
  | l :: ls => (mark :: ' ' :: l) :: ls.map fun l => ' ' :: ' ' :: l

/-- The indented lines before the first mark, and the blocks from there on. -/
def gather : List Line → List Line × List (Char × List Line)
  | [] => ([], [])
  | l :: ls =>
    match l with
    | mark :: _ :: l =>
      if mark = ' ' then (l :: (gather ls).1, (gather ls).2)
      else ([], (mark, l :: (gather ls).1) :: (gather ls).2)
    | l => ([], (' ', [l]) :: (gather ls).2)

theorem gather_indented (ls rest : List Line) :
    gather (ls.map (fun l => ' ' :: ' ' :: l) ++ rest) = (ls ++ (gather rest).1, (gather rest).2) := by
  induction ls with
  | nil => rfl
  | cons l ls ih =>
    rw [List.map_cons, List.cons_append, gather, if_pos rfl, ih]
    rfl

theorem gather_block (mark : Char) {ls rest : List Line} (hm : mark ≠ ' ') (hls : ls ≠ [])
    (hrest : (gather rest).1 = []) :
    gather (block mark ls ++ rest) = ([], (mark, ls) :: (gather rest).2) := by
  obtain ⟨l, ls, rfl⟩ := List.exists_cons_of_ne_nil hls
  rw [block, List.cons_append, gather, if_neg hm, gather_indented, hrest, List.append_nil]

/-- The number of characters. -/
def width : List Line → Nat
  | [] => 0
  | l :: ls => l.length + width ls

theorem width_append (ls ls' : List Line) : width (ls ++ ls') = width ls + width ls' := by
  induction ls with
  | nil => simp [width]
  | cons l ls ih =>
    simp only [List.cons_append, width, ih]
    omega

theorem width_indented (ls : List Line) : width ls ≤ width (ls.map fun l => ' ' :: ' ' :: l) := by
  induction ls with
  | nil => exact Nat.le_refl _
  | cons l ls ih =>
    simp only [width, List.map_cons, List.length_cons] at *
    omega

theorem width_block (mark : Char) {ls : List Line} (h : ls ≠ []) : width ls + 2 ≤ width (block mark ls) := by
  obtain ⟨l, ls, rfl⟩ := List.exists_cons_of_ne_nil h
  have hle := width_indented ls
  simp only [width, block, List.length_cons] at *
  omega

/-! ## Nodes -/

mutual

def lines : Node → List Line
  | .null => ["~".toList]
  | .scalar text => [scalarLine text.toList]
  | .sequence [] => ["[]".toList]
  | .sequence (node :: nodes) => block '-' (lines node) ++ itemLines nodes
  | .map [] => [['\x7b', '\x7d']]
  | .map ((key, node) :: entries) =>
    block '?' [scalarLine key.toList] ++ (block ':' (lines node) ++ entryLines entries)

def itemLines : List Node → List Line
  | [] => []
  | node :: nodes => block '-' (lines node) ++ itemLines nodes

def entryLines : List (String × Node) → List Line
  | [] => []
  | (key, node) :: entries =>
    block '?' [scalarLine key.toList] ++ (block ':' (lines node) ++ entryLines entries)

end

/-- Blocks by twos: a key and its value. -/
def entriesOf : List (Char × List Line) → Option (List (List Line × List Line))
  | [] => some []
  | (m, key) :: (m', node) :: blocks =>
    if m = '?' ∧ m' = ':' then (entriesOf blocks).map ((key, node) :: ·) else none
  | _ => none

def loadKey (ls : List Line) : Option String :=
  match ls with
  | [l] => match loadScalar l with
    | some (.scalar text) => some text
    | _ => none
  | _ => none

/-- `fuel` bounds the depth. -/
def parse : Nat → List Line → Option Node
  | 0, _ => none
  | fuel + 1, ls =>
    match ls with
    | ('-' :: ' ' :: _) :: _ =>
      ((gather ls).2.mapM fun b => if b.1 = '-' then parse fuel b.2 else none).map .sequence
    | ('?' :: ' ' :: _) :: _ => do
      let entries ← entriesOf (gather ls).2
      let entries ← entries.mapM fun e => do return (← loadKey e.1, ← parse fuel e.2)
      return .map entries
    | [l] => loadScalar l
    | _ => none

def emit (node : Node) : String := String.ofList (['\n'].intercalate (lines node))

def load (text : String) : Option Node :=
  let ls := text.toList.splitOn '\n'
  parse (width ls + 1) ls

theorem block_append_ne_nil (mark : Char) {ls ls' : List Line} (h : ls ≠ []) : block mark ls ++ ls' ≠ [] := by
  obtain ⟨l, ls, rfl⟩ := List.exists_cons_of_ne_nil h
  exact List.cons_ne_nil _ _

theorem lines_ne_nil (node : Node) : lines node ≠ [] := by
  induction node using Node.ind with
  | null => exact List.cons_ne_nil _ _
  | scalar => exact List.cons_ne_nil _ _
  | sequence nodes ih =>
    cases nodes with
    | nil => exact List.cons_ne_nil _ _
    | cons node nodes => exact block_append_ne_nil _ (ih node (.head _))
  | map entries ih =>
    cases entries with
    | nil => exact List.cons_ne_nil _ _
    | cons entry entries => exact List.cons_ne_nil _ _

theorem gather_itemLines (nodes : List Node) :
    gather (itemLines nodes) = ([], nodes.map fun node => ('-', lines node)) := by
  induction nodes with
  | nil => rfl
  | cons node nodes ih =>
    rw [itemLines, gather_block _ (by decide) (lines_ne_nil node) (by rw [ih]), ih]
    rfl

theorem gather_entryLines (entries : List (String × Node)) :
    (gather (entryLines entries)).1 = [] ∧
      entriesOf (gather (entryLines entries)).2 =
        some (entries.map fun e => ([scalarLine e.1.toList], lines e.2)) := by
  induction entries with
  | nil => exact ⟨rfl, rfl⟩
  | cons e entries ih =>
    obtain ⟨hpending, hentries⟩ := ih
    have hvalue := gather_block ':' (by decide) (lines_ne_nil e.2) hpending
    have hkey := gather_block '?' (by decide) (List.cons_ne_nil (scalarLine e.1.toList) []) (congrArg Prod.fst hvalue)
    rw [entryLines, hkey, hvalue]
    simp only [entriesOf, hentries, and_self, ↓reduceIte, List.map_cons, Option.map_some]

theorem width_item {nodes : List Node} : ∀ node ∈ nodes, width (lines node) + 2 ≤ width (itemLines nodes) := by
  induction nodes with
  | nil => nofun
  | cons first nodes ih =>
    intro node hnode
    rw [itemLines, width_append]
    rcases List.mem_cons.mp hnode with rfl | hnode
    · have := width_block '-' (lines_ne_nil node)
      omega
    · have := ih node hnode
      omega

theorem width_entry {entries : List (String × Node)} :
    ∀ e ∈ entries, width (lines e.2) + 2 ≤ width (entryLines entries) := by
  induction entries with
  | nil => nofun
  | cons first entries ih =>
    intro e he
    rw [entryLines, width_append, width_append]
    rcases List.mem_cons.mp he with rfl | he
    · have := width_block ':' (lines_ne_nil e.2)
      omega
    · have := ih e he
      omega

/-! ## Loading what is printed -/

theorem mapM_map_some {α β : Type} {f : β → Option α} {g : α → β} {l : List α} (h : ∀ a ∈ l, f (g a) = some a) :
    (l.map g).mapM f = some l := by
  induction l with
  | nil => rfl
  | cons a l ih =>
    rw [List.map_cons, List.mapM_cons, h a (.head _), ih fun b hb => h b (.tail _ hb)]
    rfl

theorem parse_items {fuel : Nat} {node : Node} {nodes : List Node}
    (h : ∀ n ∈ node :: nodes, parse fuel (lines n) = some n) :
    parse (fuel + 1) (itemLines (node :: nodes)) = some (.sequence (node :: nodes)) := by
  obtain ⟨l, ls, hls⟩ := List.exists_cons_of_ne_nil (lines_ne_nil node)
  have hhead : itemLines (node :: nodes) = ('-' :: ' ' :: l) :: (ls.map (' ' :: ' ' :: ·) ++ itemLines nodes) := by
    rw [itemLines, hls]
    rfl
  have hgather := gather_itemLines (node :: nodes)
  rw [hhead] at hgather ⊢
  simp only [parse, hgather]
  rw [mapM_map_some]
  · rfl
  · intro n hn
    rw [if_pos rfl]
    exact h n hn

theorem loadKey_key (key : String) : loadKey [scalarLine key.toList] = some key := by
  rw [loadKey, loadScalar_scalarLine, String.ofList_toList]

theorem parse_entries {fuel : Nat} {entry : String × Node} {entries : List (String × Node)}
    (h : ∀ e ∈ entry :: entries, parse fuel (lines e.2) = some e.2) :
    parse (fuel + 1) (entryLines (entry :: entries)) = some (.map (entry :: entries)) := by
  have hhead : entryLines (entry :: entries) = ('?' :: ' ' :: scalarLine entry.1.toList) ::
      (block ':' (lines entry.2) ++ entryLines entries) := by
    rw [entryLines]
    rfl
  obtain ⟨-, hgather⟩ := gather_entryLines (entry :: entries)
  rw [hhead] at hgather ⊢
  simp only [parse, hgather, Option.bind_eq_bind, Option.bind_some]
  rw [mapM_map_some]
  · rfl
  · intro e he
    rw [loadKey_key, h e he]
    rfl

/-- A scalar does not look like a marked line. -/
theorem scalarLine_mark {s l : Line} {c : Char} (h : scalarLine s = c :: ' ' :: l) : c = '"' := by
  unfold scalarLine at h
  split at h
  · rename_i hplain
    have hmem : ' ' ∈ s := by simp [h]
    rcases alphanum_of_plain hplain _ hmem with h | h
    · exact absurd h (by decide)
    · exact absurd h (by decide)
  · exact (List.cons.inj h).1.symm

theorem parse_scalar (fuel : Nat) (text : String) :
    parse (fuel + 1) [scalarLine text.toList] = some (.scalar text) := by
  have hload := loadScalar_scalarLine text.toList
  rw [String.ofList_toList] at hload
  unfold parse
  split
  · rename_i heq
    exact absurd (scalarLine_mark (List.cons.inj heq).1) (by decide)
  · rename_i heq
    exact absurd (scalarLine_mark (List.cons.inj heq).1) (by decide)
  · rename_i heq
    rw [← (List.cons.inj heq).1]
    exact hload
  · rename_i h
    exact absurd rfl (h _)

theorem parse_lines (node : Node) : ∀ fuel, width (lines node) < fuel → parse fuel (lines node) = some node := by
  induction node using Node.ind with
  | null =>
    intro fuel hf
    obtain ⟨fuel, rfl⟩ := Nat.exists_eq_add_one_of_ne_zero (Nat.ne_zero_of_lt hf)
    rfl
  | scalar text =>
    intro fuel hf
    obtain ⟨fuel, rfl⟩ := Nat.exists_eq_add_one_of_ne_zero (Nat.ne_zero_of_lt hf)
    exact parse_scalar fuel text
  | sequence nodes ih =>
    intro fuel hf
    obtain ⟨fuel, rfl⟩ := Nat.exists_eq_add_one_of_ne_zero (Nat.ne_zero_of_lt hf)
    cases nodes with
    | nil => rfl
    | cons node nodes =>
      refine parse_items fun n hn => ih n hn fuel ?_
      have hw := width_item n hn
      rw [lines] at hf
      rw [itemLines] at hw
      omega
  | map entries ih =>
    intro fuel hf
    obtain ⟨fuel, rfl⟩ := Nat.exists_eq_add_one_of_ne_zero (Nat.ne_zero_of_lt hf)
    cases entries with
    | nil => rfl
    | cons entry entries =>
      refine parse_entries fun e he => ih e he fuel ?_
      have hw := width_entry e he
      rw [lines] at hf
      rw [entryLines] at hw
      omega

theorem newline_block {mark : Char} {ls : List Line} (hm : mark ≠ '\n') (h : ∀ l ∈ ls, '\n' ∉ l) :
    ∀ l ∈ block mark ls, '\n' ∉ l := by
  cases ls with
  | nil => nofun
  | cons first ls =>
    intro l hl
    rcases List.mem_cons.mp hl with rfl | hl
    · simp [Ne.symm hm, h first (.head _)]
    · obtain ⟨l', hl', rfl⟩ := List.mem_map.mp hl
      simp [h l' (.tail _ hl')]

theorem newline_items {nodes : List Node} (h : ∀ node ∈ nodes, ∀ l ∈ lines node, '\n' ∉ l) :
    ∀ l ∈ itemLines nodes, '\n' ∉ l := by
  induction nodes with
  | nil => nofun
  | cons node nodes ih =>
    intro l hl
    rw [itemLines] at hl
    rcases List.mem_append.mp hl with hl | hl
    · exact newline_block (by decide) (h node (.head _)) l hl
    · exact ih (fun n hn => h n (.tail _ hn)) l hl

theorem newline_entries {entries : List (String × Node)} (h : ∀ e ∈ entries, ∀ l ∈ lines e.2, '\n' ∉ l) :
    ∀ l ∈ entryLines entries, '\n' ∉ l := by
  induction entries with
  | nil => nofun
  | cons e entries ih =>
    intro l hl
    rw [entryLines] at hl
    rcases List.mem_append.mp hl with hl | hl
    · have hkey : ∀ l ∈ [scalarLine e.1.toList], '\n' ∉ l := by
        intro l hl
        rw [List.mem_singleton.mp hl]
        exact newline_scalarLine _
      exact newline_block (by decide) hkey l hl
    · rcases List.mem_append.mp hl with hl | hl
      · exact newline_block (by decide) (h e (.head _)) l hl
      · exact ih (fun e he => h e (.tail _ he)) l hl

theorem newline_lines (node : Node) : ∀ l ∈ lines node, '\n' ∉ l := by
  induction node using Node.ind with
  | null => decide
  | scalar text =>
    intro l hl
    rw [lines, List.mem_singleton] at hl
    rw [hl]
    exact newline_scalarLine _
  | sequence nodes ih =>
    cases nodes with
    | nil => decide
    | cons node nodes => exact newline_items ih
  | map entries ih =>
    cases entries with
    | nil => decide
    | cons entry entries => exact newline_entries ih

theorem load_emit (node : Node) : load (emit node) = some node := by
  rw [load, emit, String.toList_ofList, List.splitOn_intercalate _ (newline_lines node) (lines_ne_nil node)]
  exact parse_lines node _ (Nat.lt_succ_self _)

example : emit (.sequence [.scalar "ab", .null]) = "- ab\n- ~" := by decide

theorem load_empty : load "" = some .null := by
  rfl

theorem emit_null : emit .null = "~" := by
  decide

/-- A plain text is the scalar it reads as. -/
theorem load_plain {text : String} (h : isPlain text.toList) : load text = some (.scalar text) := by
  have hemit : emit (.scalar text) = text := by
    rw [emit, lines, scalarLine, if_pos h]
    simp
  rw [← hemit, load_emit, hemit]

theorem emit_plain {text : String} (h : isPlain text.toList) : emit (.scalar text) = text := by
  rw [emit, lines, scalarLine, if_pos h]
  simp

end BlockYaml
