/-
  Sylar.Util.Realpath — `FSUtil::Dirname`, `Basename` and `Realpath` (sylar/util.cpp lines
  268-304).

  The two cut a path at its last slash, by the text alone. What lstat and unlink look up is
  the entry `Basename(path)` in the directory that `Dirname(path)` names, for every path
  (`whole_iff_dirname`); a path that ends in a slash has the empty Basename and is looked up
  as a directory instead.

  `realpath` writes down the location a path leads to, from the root. That text is one name
  for the location: no link, no `.` and no empty piece in it, the same for all paths to it,
  and Realpath gives it back unchanged. The system's realpath looks every name up by its
  path from the root. So where a directory above the working directory may not be searched,
  it fails on the names of relative paths, and gives a text for `.` and `..` that does not
  lead there (`realpath_canonical`).
-/

import Sylar.Util.Mkdir
import Mathlib.Data.List.Induction
import Mathlib.Data.List.Infix

namespace Sylar.FSUtil

/-! ## The text -/

/-- `filename.rfind('/')`. -/
def rfindSlash : List Char → Option Nat
  | [] => none
  | c :: rest =>
    match rfindSlash rest with
    | some pos => some (pos + 1)
    | none => if c = '/' then some 0 else none

def Dirname (filename : String) : String :=
  if filename = "" then "."
  else
    match rfindSlash filename.toList with
    | some 0 => "/"
    | none => "."
    | some pos => String.ofList (filename.toList.take pos)

def Basename (filename : String) : String :=
  if filename = "" then filename
  else
    match rfindSlash filename.toList with
    | none => filename
    | some pos => String.ofList (filename.toList.drop (pos + 1))

/-- The text of a location: a slash before each name. -/
def absolute (loc : Loc) : String := if loc = [] then "/" else String.join (loc.reverse.map ("/" ++ ·))

section

variable (P : Process) (T : Tree)

/-- The process as it resolves the names of absolute paths only. -/
def Process.fromRoot : Process := { P with may := { P.may with search := fun loc => loc.tails.all P.may.search } }

/-- The dots and slashes a path begins with, taken off by the text alone. -/
def dots (cur : Loc) : List String → Loc × List String
  | [] => (cur, [])
  | piece :: rest =>
    if piece = ".." then dots cur.tail rest
    else if piece = "" ∨ piece = "." then dots cur rest
    else (cur, piece :: rest)

/-- `::realpath(path, nullptr)`, which looks every name up by its path from the root. -/
def realpath (path : String) : Option String :=
  if path = "" then none
  else
    let (cur, names) := dots (start P.cwd path) (pieces path)
    (walk P.fromRoot T P.links cur names).map fun r => absolute r.2

/-- `FSUtil::Realpath`: what it returns, and `rpath` after it. -/
def Realpath (path rpath : String) : Bool × String :=
  if (lstat P T path).isNone then (false, rpath)
  else
    match realpath P T path with
    | none => (false, rpath)
    | some ptr => (true, ptr)

end

/-! ## The last slash -/

variable {P : Process} {T : Tree} {path name : String} {loc dir : Loc}

theorem rfindSlash_none {s : List Char} : rfindSlash s = none ↔ '/' ∉ s := by
  induction s with
  | nil => simp [rfindSlash]
  | cons c rest ih =>
    rw [rfindSlash]
    cases hrest : rfindSlash rest with
    | some pos =>
      have hin : '/' ∈ rest := by
        by_contra hno
        rw [ih.mpr hno] at hrest
        cases hrest
      simp [hin]
    | none =>
      have hno := ih.mp hrest
      by_cases hc : c = '/'
      · simp [hc]
      · simp [hc, hno, eq_comm]

theorem rfindSlash_some {s : List Char} {pos : Nat} (h : rfindSlash s = some pos) :
    s = s.take pos ++ '/' :: s.drop (pos + 1) ∧ '/' ∉ s.drop (pos + 1) := by
  induction s generalizing pos with
  | nil => cases h
  | cons c rest ih =>
    rw [rfindSlash] at h
    cases hrest : rfindSlash rest with
    | some pos' =>
      rw [hrest] at h
      cases h
      obtain ⟨hsplit, hno⟩ := ih hrest
      exact ⟨congrArg (c :: ·) hsplit, hno⟩
    | none =>
      rw [hrest] at h
      dsimp only at h
      split at h
      · next hc =>
        cases h
        exact ⟨by simp [hc], rfindSlash_none.mp hrest⟩
      · cases h

/-- A path without a slash, after one slash, or after some directory. -/
inductive Cut (path : String) : String → String → Prop
  | plain : '/' ∉ path.toList → Cut path "." path
  | root (base : String) : path = "/" ++ base → '/' ∉ base.toList → Cut path "/" base
  | deep (front base : String) : front ≠ "" → path = front ++ "/" ++ base → '/' ∉ base.toList →
    Cut path front base

theorem cut_path (path : String) : Cut path (Dirname path) (Basename path) := by
  unfold Dirname Basename
  by_cases hempty : path = ""
  · rw [if_pos hempty, if_pos hempty]
    exact .plain (by simp [hempty])
  · rw [if_neg hempty, if_neg hempty]
    cases hpos : rfindSlash path.toList with
    | none => exact .plain (rfindSlash_none.mp hpos)
    | some pos =>
      obtain ⟨hsplit, hno⟩ := rfindSlash_some hpos
      have hbase : '/' ∉ (String.ofList (path.toList.drop (pos + 1))).toList := by simpa using hno
      have hpath : path =
          String.ofList (path.toList.take pos) ++ "/" ++ String.ofList (path.toList.drop (pos + 1)) := by
        rw [← String.toList_inj]
        simp only [String.toList_append, String.toList_ofList, List.append_assoc]
        exact hsplit
      cases pos with
      | zero => exact .root _ hpath hbase
      | succ pos =>
        refine .deep _ _ (fun hfront => ?_) hpath hbase
        have hnil : path.toList.take (pos + 1) = [] := by
          have hlist : (String.ofList (path.toList.take (pos + 1))).toList = [] := congrArg String.toList hfront
          rwa [String.toList_ofList] at hlist
        rcases List.take_eq_nil_iff.mp hnil with hpos | hpath
        · cases hpos
        · exact hempty (String.toList_eq_nil_iff.mp hpath)

/-! ## The directory and the name in it -/

theorem whole_iff_pieces {front : List String} {base : String} (h : pieces path = front ++ [base]) :
    whole P T path = some (dir, name) ↔
      name = base ∧ ¬Special name ∧ (∃ links, walk P T P.links (start P.cwd path) front = some (links, dir)) ∧
        T.isDir dir ∧ P.may.search dir = true := by
  rw [whole_iff]
  constructor
  · rintro ⟨front', hpieces, hname, hrest⟩
    obtain ⟨rfl, rfl⟩ := List.append_singleton_inj.mp (h.symm.trans hpieces)
    exact ⟨rfl, hname, hrest⟩
  · rintro ⟨rfl, hname, hrest⟩
    exact ⟨front, h, hname, hrest⟩

/-- `.` is the working directory, when that may be searched. -/
theorem follow_dot (hdir : T.isDir dir) (hsearch : P.may.search dir = true) :
    follow P T "." = some dir ↔ P.cwd = dir := by
  have hpieces : pieces "." = ["."] := pieces_name (by decide)
  have hstart : start P.cwd "." = P.cwd := if_neg (by decide)
  rw [follow_iff, hpieces, hstart]
  constructor
  · rintro ⟨-, links, hwalk⟩
    rcases walk_cons hwalk with ⟨loc, hmove, hend⟩ | ⟨target, hmove⟩
    · rw [move, if_neg (by decide)] at hmove
      split at hmove
      · cases hmove
        cases (walk_nil P.links P.cwd).symm.trans hend
        rfl
      · cases hmove
    · obtain ⟨_, hto, -⟩ := move_special (.inr (.inl rfl)) hmove
      cases hto
  · rintro rfl
    refine ⟨by decide, P.links, walk_one ?_⟩
    rw [move, if_neg (by decide), if_pos ⟨hdir, hsearch⟩, if_pos rfl]

/-- Nothing but slashes leads to the root. -/
theorem walk_slashes {names : List String} (hne : names ≠ []) (h : ∀ name ∈ names, name = "") (links : Nat) :
    walk P T links [] names = if T.isDir [] then some (links, []) else none := by
  by_cases hroot : T.isDir []
  · rw [walk_empties hroot h, if_pos hroot]
  · obtain ⟨first, rest, rfl⟩ := List.exists_cons_of_ne_nil hne
    rw [h first (.head _), walk, move, if_pos rfl, if_neg hroot, if_neg hroot]

/-- lstat and unlink look up the Basename of a path in the directory named by its Dirname. -/
theorem whole_iff_dirname (P : Process) (T : Tree) (path name : String) (dir : Loc) :
    whole P T path = some (dir, name) ↔
      name = Basename path ∧ ¬Special name ∧ follow P T (Dirname path) = some dir ∧ T.isDir dir ∧
        P.may.search dir = true := by
  have hcut := cut_path path
  generalize Dirname path = front at hcut ⊢
  generalize Basename path = base at hcut ⊢
  cases hcut with
  | plain hno =>
    have hstart : start P.cwd path = P.cwd := by
      refine if_neg fun hhead => hno ?_
      exact List.mem_of_mem_head? hhead
    have hpieces : pieces path = [] ++ [path] := pieces_name hno
    rw [whole_iff_pieces hpieces, hstart]
    refine and_congr_right fun _ => and_congr_right fun _ => and_congr_left fun ⟨hdir, hsearch⟩ => ?_
    rw [follow_dot hdir hsearch]
    simp
  | root _ hpath hno =>
    have hsub : path = "" ++ "/" ++ base := hpath
    have hempty : pieces "" = [""] := pieces_name (by decide)
    have hpieces : pieces path = [""] ++ [base] := by rw [hsub, pieces_append, pieces_name hno, hempty]
    have hslash : pieces "/" = ["", ""] := by decide
    have hstart : start P.cwd path = [] := by
      refine if_pos ?_
      rw [hpath, String.toList_append]
      rfl
    have hstart' : start P.cwd "/" = [] := if_pos (by decide)
    rw [whole_iff_pieces hpieces, follow_iff, hstart, hstart', hslash,
      walk_slashes (List.cons_ne_nil _ _) (by simp), walk_slashes (List.cons_ne_nil _ _) (by simp)]
    simp
  | deep _ _ hne hpath hno =>
    have hpieces : pieces path = pieces front ++ [base] := by rw [hpath, pieces_append, pieces_name hno]
    rw [whole_iff_pieces hpieces, follow_iff]
    have hstart : start P.cwd path = start P.cwd front := by rw [hpath, start_sub _ hne]
    rw [hstart]
    simp [hne]

/-! ## The location written down -/

/-- What a path names is no link, and the root is named as a directory. -/
theorem walk_end {links links' : Nat} {cur : Loc} {names : List String} (hne : names ≠ [])
    (h : walk P T links cur names = some (links', loc)) :
    ∃ e ∈ T.entry loc, (∀ target, e.kind ≠ .LNK target) ∧ (loc = [] → e.kind = .DIR) := by
  fun_induction walk P T links cur names with
  | case1 => exact absurd rfl hne
  | case2 => cases h
  | case3 links cur piece rest cur' hmove ih =>
    cases rest with
    | nil =>
      cases (walk_nil links cur').symm.trans h
      rcases move_cases hmove with ⟨-, _, hto, e, he, hdir⟩ | ⟨-, -, -, e, he, ⟨_, -, hlink⟩ | ⟨hno, hto⟩⟩
      · cases hto
        refine ⟨e, he, fun target hl => ?_, fun _ => hdir⟩
        cases hdir.symm.trans hl
      · cases hlink
      · cases hto
        exact ⟨e, he, hno, fun hnil => absurd hnil (List.cons_ne_nil _ _)⟩
    | cons => exact ih (List.cons_ne_nil _ _) h
  | case4 => cases h
  | case5 cur piece rest target hmove links ih =>
    exact ih (List.append_ne_nil_of_left_ne_nil (by simp [pieces]) _) h

/-- The directories above a location, down from `base`, may be searched. -/
def Searchable (P : Process) (base loc : Loc) : Prop :=
  ∀ l, base <:+ l → l <:+ loc → l ≠ loc → P.may.search l = true

theorem searchable_self (P : Process) (loc : Loc) : Searchable P loc loc := by
  intro l hbase hloc hne
  exact absurd (hloc.eq_of_length_le hbase.length_le) hne

theorem searchable_cons {name : String} {base : Loc} (h : (name :: base) <:+ loc) :
    Searchable P base loc ↔ P.may.search base = true ∧ Searchable P (name :: base) loc := by
  have hbase : base <:+ loc := (List.suffix_cons name base).trans h
  constructor
  · intro hall
    refine ⟨hall base (List.suffix_refl base) hbase fun he => ?_, fun l hl => hall l ?_⟩
    · have hlen := h.length_le
      rw [← he, List.length_cons] at hlen
      omega
    · exact (List.suffix_cons name base).trans hl
  · rintro ⟨hsearch, hall⟩ l hl hloc hne
    by_cases hlen : l.length ≤ base.length
    · rw [← hl.eq_of_length_le hlen]
      exact hsearch
    · refine hall l (List.suffix_of_suffix_length_le h hloc ?_) hloc hne
      rw [List.length_cons]
      omega

/-- A walk down by the names of a location. -/
theorem walk_down {names : List String} (links : Nat) {base : Loc} (hsome : (T.entry (names.reverse ++ base)).isSome)
    (hlink : ∀ e ∈ T.entry (names.reverse ++ base), ∀ target, e.kind ≠ .LNK target) {r : Nat × Loc} :
    walk P T links base names = some r ↔
      r = (links, names.reverse ++ base) ∧ Searchable P base (names.reverse ++ base) := by
  induction names generalizing base with
  | nil =>
    rw [walk_nil, Option.some_inj, eq_comm]
    exact (and_iff_left (searchable_self P base)).symm
  | cons name names ih =>
    have hloc : (name :: names).reverse ++ base = names.reverse ++ name :: base := by simp
    rw [hloc] at hsome hlink ⊢
    have hin : (name :: base) <:+ names.reverse ++ name :: base := List.suffix_append _ _
    -- every name on the way is there and is no link
    have hentry : ∃ e ∈ T.entry (name :: base), ∀ target, e.kind ≠ .LNK target := by
      by_cases he : names.reverse ++ name :: base = name :: base
      · rw [he] at hsome hlink
        obtain ⟨e, he⟩ := Option.isSome_iff_exists.mp hsome
        exact ⟨e, he, hlink e he⟩
      · obtain ⟨e, he, hkind⟩ := Tree.isDir_of_below hin he hsome
        exact ⟨e, he, fun target hl => nomatch hkind.symm.trans hl⟩
    obtain ⟨e, he, hnolink⟩ := hentry
    have hsome' : (T.entry (name :: base)).isSome := Option.isSome_of_mem he
    have hdir : T.isDir base := T.closed name base hsome'
    have hname : ¬Special name := (T.proper name base hsome').1
    rw [searchable_cons hin]
    by_cases hsearch : P.may.search base = true
    · rw [walk, move_name hname hdir hsearch he hnolink]
      dsimp only
      rw [ih hsome hlink]
      simp [hsearch]
    · have hnone : move P T base name = none := by
        rw [move, if_neg fun h => hname (.inl h), if_neg fun h => hsearch h.2]
      rw [walk, hnone]
      simp [hsearch]

/-- The names of a location are proper. -/
theorem proper_of_isSome (h : (T.entry loc).isSome) : ∀ name ∈ loc, Proper name := by
  induction loc with
  | nil => nofun
  | cons name dir ih =>
    intro name' hin
    rcases List.mem_cons.mp hin with rfl | hin
    · exact T.proper _ dir h
    · exact ih (Tree.isDir_isSome (T.closed name dir h)) name' hin

/-- A slash before each name. -/
theorem pieces_join {names : List String} (h : ∀ name ∈ names, '/' ∉ name.toList) :
    pieces (String.join (names.map ("/" ++ ·))) = "" :: names := by
  induction names using List.reverseRecOn with
  | nil => exact pieces_name (by decide)
  | append_singleton names name ih =>
    have hjoin : String.join ((names ++ [name]).map ("/" ++ ·)) =
        String.join (names.map ("/" ++ ·)) ++ "/" ++ name := by
      rw [List.map_append, String.join_append, String.append_assoc]
      simp
    rw [hjoin, pieces_append, ih fun name' hin => h name' (List.mem_append_left _ hin),
      pieces_name (h name (by simp))]
    rfl

theorem pieces_absolute (h : (T.entry loc).isSome) (hne : loc ≠ []) : pieces (absolute loc) = "" :: loc.reverse := by
  rw [absolute, if_neg hne, pieces_join]
  intro name hin
  exact (proper_of_isSome h name (List.mem_reverse.mp hin)).2

theorem start_absolute (cur loc : Loc) : start cur (absolute loc) = [] := by
  refine if_pos ?_
  rcases List.eq_nil_or_concat loc with rfl | ⟨init, last, rfl⟩
  · rfl
  · rw [absolute, if_neg (by simp), List.concat_eq_append, List.reverse_concat, List.map_cons, String.join_cons,
      String.toList_append, String.toList_append]
    rfl

theorem absolute_ne (loc : Loc) : absolute loc ≠ "" := by
  intro hempty
  have hstart := start_absolute ["x"] loc
  rw [hempty] at hstart
  cases hstart

/-- Different locations are written down differently. -/
theorem absolute_inj {loc' : Loc} (h : (T.entry loc).isSome) (h' : (T.entry loc').isSome)
    (heq : absolute loc = absolute loc') : loc = loc' := by
  have hroot : ∀ {l : Loc}, (T.entry l).isSome → l ≠ [] → absolute l ≠ "/" := by
    intro l hl hne heq
    have hpieces := pieces_absolute hl hne
    have hslash : pieces "/" = ["", ""] := by decide
    rw [heq, hslash] at hpieces
    have hin : "" ∈ l := by
      rw [← List.mem_reverse, ← (List.cons.inj hpieces).2]
      exact .head _
    exact (proper_of_isSome hl "" hin).1 (.inl rfl)
  by_cases hne : loc = []
  · by_cases hne' : loc' = []
    · rw [hne, hne']
    · exact absurd (heq.symm.trans (if_pos hne)) (hroot h' hne')
  · by_cases hne' : loc' = []
    · exact absurd (heq.trans (if_pos hne')) (hroot h hne)
    · have hpieces := (pieces_absolute h hne).symm.trans ((congrArg pieces heq).trans (pieces_absolute h' hne'))
      exact List.reverse_injective (List.cons.inj hpieces).2

/-- The text of a location names it, if the process may search the way from the root. -/
theorem follow_absolute (hfollow : follow P T path = some loc) (l : Loc) :
    follow P T (absolute loc) = some l ↔ l = loc ∧ Searchable P [] loc := by
  obtain ⟨-, links, hwalk⟩ := follow_iff.mp hfollow
  obtain ⟨e, he, hlink, hroot⟩ := walk_end (pieces_ne_nil path) hwalk
  have hsome : (T.entry loc).isSome := Option.isSome_of_mem he
  rw [follow_iff, start_absolute]
  by_cases hne : loc = []
  · subst hne
    have hslash : pieces (absolute []) = ["", ""] := by decide
    rw [hslash, walk_slashes (List.cons_ne_nil _ _) (by simp), if_pos ⟨e, he, hroot rfl⟩]
    constructor
    · rintro ⟨-, _, heq⟩
      cases heq
      exact ⟨rfl, searchable_self P []⟩
    · rintro ⟨rfl, -⟩
      exact ⟨absolute_ne [], _, rfl⟩
  · have hdir : T.isDir [] := Tree.isDir_of_below List.nil_suffix hne hsome
    have hdown : ∀ r, walk P T P.links [] loc.reverse = some r ↔ r = (P.links, loc) ∧ Searchable P [] loc := by
      have hloc : loc.reverse.reverse ++ [] = loc := by simp
      have hlink' : ∀ e' ∈ T.entry (loc.reverse.reverse ++ []), ∀ target, e'.kind ≠ .LNK target := by
        rw [hloc]
        exact fun e' he' => Option.mem_unique he he' ▸ hlink
      intro r
      rw [walk_down P.links (hloc.symm ▸ hsome) hlink', hloc]
    rw [pieces_absolute hsome hne, walk, move_empty hdir]
    simp only [hdown, Prod.mk.injEq]
    simp [absolute_ne]

/-! ## Names looked up from the root -/

theorem fromRoot_search : P.fromRoot.may.search loc = true ↔ P.may.search loc = true ∧ Searchable P [] loc := by
  have hall : P.fromRoot.may.search loc = true ↔ ∀ l, l <:+ loc → P.may.search l = true := by
    simp [Process.fromRoot, List.mem_tails]
  rw [hall]
  constructor
  · intro h
    exact ⟨h loc (List.suffix_refl loc), fun l _ hl _ => h l hl⟩
  · rintro ⟨hsearch, habove⟩ l hl
    by_cases he : l = loc
    · rw [he]
      exact hsearch
    · exact habove l List.nil_suffix hl he

theorem searchable_suffix (h : Searchable P [] loc) (hdir : dir <:+ loc) : Searchable P [] dir := by
  intro l hbase hl hne
  refine h l hbase (hl.trans hdir) fun he => hne ?_
  exact hl.eq_of_length_le (he ▸ hdir.length_le)

theorem searchable_name (h : Searchable P [] dir) (hsearch : P.may.search dir = true) :
    Searchable P [] (name :: dir) := by
  intro l hbase hl hne
  rcases List.suffix_cons_iff.mp hl with he | hl
  · exact absurd he hne
  · by_cases he : l = dir
    · rw [he]
      exact hsearch
    · exact h l hbase hl he

theorem searchable_start {cur : Loc} (h : Searchable P [] cur) (path : String) : Searchable P [] (start cur path) := by
  rw [start]
  split
  · exact searchable_self P []
  · exact h

/-- Where a dot or an empty piece leads to. -/
theorem move_dots {cur : Loc} {piece : String} (hp : Special piece) (h : move P T cur piece = some (.to loc)) :
    loc = if piece = ".." then cur.tail else cur := by
  unfold move at h
  rcases hp with rfl | rfl | rfl
  · rw [if_pos rfl] at h
    split at h
    · cases h
      exact (if_neg (by decide)).symm
    · cases h
  · rw [if_neg (by decide), if_pos rfl] at h
    split at h
    · cases h
      exact (if_neg (by decide)).symm
    · cases h
  · have hdot : ¬".." = "." := by decide
    rw [if_neg (by decide), if_neg hdot, if_pos rfl] at h
    split at h
    · cases h
      exact (if_pos rfl).symm
    · cases h

/-- From a directory whose way from the root may be searched, one piece leads to another. -/
theorem searchable_move {cur : Loc} {piece : String} (h : Searchable P [] cur)
    (hmove : move P T cur piece = some (.to loc)) : Searchable P [] loc := by
  by_cases hspecial : Special piece
  · rw [move_dots hspecial hmove]
    split
    · exact searchable_suffix h (List.tail_suffix cur)
    · exact h
  · rcases move_cases hmove with ⟨hs, -⟩ | ⟨-, -, hsearch, e, -, ⟨_, -, hlink⟩ | ⟨-, hto⟩⟩
    · exact absurd hs hspecial
    · cases hlink
    · cases hto
      exact searchable_name h hsearch

theorem move_fromRoot {cur : Loc} (h : Searchable P [] cur) (piece : String) :
    move P.fromRoot T cur piece = move P T cur piece := by
  have hsearch : P.fromRoot.may.search cur = true ↔ P.may.search cur = true := by
    rw [fromRoot_search, and_iff_left h]
  simp only [move, hsearch]

/-- There it makes no difference where names are looked up from. -/
theorem walk_fromRoot {links : Nat} {cur : Loc} {names : List String} (h : Searchable P [] cur) :
    walk P.fromRoot T links cur names = walk P T links cur names := by
  fun_induction walk P T links cur names with
  | case1 links cur => exact walk_nil links cur
  | case2 links cur piece rest hmove => rw [walk, move_fromRoot h, hmove]
  | case3 links cur piece rest cur' hmove ih =>
    rw [walk, move_fromRoot h, hmove]
    exact ih (searchable_move h hmove)
  | case4 cur piece rest target hmove => rw [walk, move_fromRoot h, hmove]
  | case5 cur piece rest target hmove links ih =>
    rw [walk, move_fromRoot h, hmove]
    exact ih (searchable_start h target)

theorem searchable_walk {links links' : Nat} {cur : Loc} {names : List String} (h : Searchable P [] cur)
    (hwalk : walk P T links cur names = some (links', loc)) : Searchable P [] loc := by
  fun_induction walk P T links cur names with
  | case1 links cur =>
    cases hwalk
    exact h
  | case2 => cases hwalk
  | case3 links cur piece rest cur' hmove ih => exact ih (searchable_move h hmove) hwalk
  | case4 => cases hwalk
  | case5 cur piece rest target hmove links ih => exact ih (searchable_start h target) hwalk

/-! ## The dots a path begins with -/

theorem dots_suffix (cur : Loc) (names : List String) : (dots cur names).1 <:+ cur := by
  fun_induction dots cur names with
  | case1 cur => exact List.suffix_refl cur
  | case2 cur rest ih => exact ih.trans (List.tail_suffix cur)
  | case3 cur piece rest _ _ ih => exact ih
  | case4 cur => exact List.suffix_refl cur

/-- What is left begins with a name. -/
theorem dots_name {cur : Loc} {names rest : List String} {piece : String}
    (h : (dots cur names).2 = piece :: rest) : ¬Special piece := by
  fun_induction dots cur names with
  | case1 => cases h
  | case2 cur rest' ih => exact ih h
  | case3 cur piece' rest' _ _ ih => exact ih h
  | case4 cur piece' rest' hdots hdot =>
    cases h
    rintro (hs | hs | hs)
    · exact hdot (.inl hs)
    · exact hdot (.inr hs)
    · exact hdots hs

theorem dots_nil {cur : Loc} {names : List String} : (dots cur names).2 = [] ↔ ∀ piece ∈ names, Special piece := by
  fun_induction dots cur names with
  | case1 => simp
  | case2 cur rest ih => simp [ih, Special]
  | case3 cur piece rest _ hdot ih =>
    have hspecial : Special piece := hdot.imp_right .inl
    simp [ih, hspecial]
  | case4 cur piece rest hdots hdot =>
    have hspecial : ¬Special piece := by
      rintro (hs | hs | hs)
      · exact hdot (.inl hs)
      · exact hdot (.inr hs)
      · exact hdots hs
    simp [hspecial]

theorem dots_concat {front : List String} (hname : ¬Special name) (cur : Loc) :
    dots cur (front ++ [name]) = ((dots cur front).1, (dots cur front).2 ++ [name]) := by
  obtain ⟨h1, h2, h3⟩ : name ≠ "" ∧ name ≠ "." ∧ name ≠ ".." := by simpa [Special] using hname
  fun_induction dots cur front with
  | case1 cur => simp [dots, h1, h2, h3]
  | case2 cur rest ih => simpa [dots] using ih
  | case3 cur piece rest hdots hdot ih => simpa [dots, hdots, hdot] using ih
  | case4 cur piece rest hdots hdot => simp [dots, hdots, hdot]

/-- The system walks over them to the same place. -/
theorem walk_dots {links : Nat} {cur : Loc} {names : List String} {r : Nat × Loc}
    (h : walk P T links cur names = some r) : walk P T links (dots cur names).1 (dots cur names).2 = some r := by
  fun_induction dots cur names with
  | case1 => exact h
  | case2 cur rest ih =>
    rcases walk_cons h with ⟨loc, hmove, hend⟩ | ⟨target, hmove⟩
    · have hloc : loc = cur.tail := (move_dots (.inr (.inr rfl)) hmove).trans (if_pos rfl)
      exact ih (hloc ▸ hend)
    · obtain ⟨_, hto, -⟩ := move_special (.inr (.inr rfl)) hmove
      cases hto
  | case3 cur piece rest hdots hdot ih =>
    rcases walk_cons h with ⟨loc, hmove, hend⟩ | ⟨target, hmove⟩
    · have hloc : loc = cur := (move_dots (hdot.imp_right .inl) hmove).trans (if_neg hdots)
      exact ih (hloc ▸ hend)
    · obtain ⟨_, hto, -⟩ := move_special (hdot.imp_right .inl) hmove
      cases hto
  | case4 => exact h

/-- What lstat finds without its last link, the system finds from where the names begin. -/
theorem follow_dots (h : (lstat P T path).isSome) :
    follow P T path =
      (walk P T P.links (dots (start P.cwd path) (pieces path)).1 (dots (start P.cwd path) (pieces path)).2).map
        Prod.snd := by
  obtain ⟨loc, hloc⟩ := Option.isSome_iff_exists.mp h
  rcases lstat_cases hloc with ⟨-, -, -, -, hfollow⟩ | ⟨dir, name, hwhole, -, -⟩
  · obtain ⟨-, links, hwalk⟩ := follow_iff.mp hfollow
    rw [hfollow, walk_dots hwalk, Option.map_some]
  · obtain ⟨front, hpieces, hname, ⟨links, hwalk⟩, -⟩ := whole_iff.mp hwhole
    rw [follow, if_neg (path_ne_of_whole hwhole), hpieces, dots_concat hname, walk_append, walk_append, hwalk,
      walk_dots hwalk]

/-! ## The real path -/

/-- The path has no name, or the directories above the one its first name is looked up in
    may be searched. -/
def Rooted (P : Process) (path : String) : Prop :=
  (∀ piece ∈ pieces path, Special piece) ∨ Searchable P [] (dots (start P.cwd path) (pieces path)).1

theorem rooted_of_start (h : Searchable P [] (start P.cwd path)) : Rooted P path :=
  .inr (searchable_suffix h (dots_suffix _ _))

/-- A name that was looked up from the root. -/
theorem searched_from_root {links : Nat} {cur : Loc} {rest : List String} {r : Nat × Loc} (hname : ¬Special name)
    (h : walk P.fromRoot T links cur (name :: rest) = some r) : Searchable P [] cur := by
  have hsearch : ∀ m, move P.fromRoot T cur name = some m → Searchable P [] cur := by
    intro m hmove
    rcases move_cases hmove with ⟨hs, -⟩ | ⟨-, -, hsearch, -⟩
    · exact absurd hs hname
    · exact (fromRoot_search.mp hsearch).2
  rcases walk_cons h with ⟨loc, hmove, -⟩ | ⟨target, hmove⟩
  · exact hsearch _ hmove
  · exact hsearch _ hmove

theorem realpath_eq_some (h : (lstat P T path).isSome) {text : String} :
    realpath P T path = some text ↔ Rooted P path ∧ ∃ loc, follow P T path = some loc ∧ absolute loc = text := by
  have hne : path ≠ "" := by
    rintro rfl
    obtain ⟨loc, hloc⟩ := Option.isSome_iff_exists.mp h
    cases hloc
  rw [follow_dots h, realpath, if_neg hne, Rooted, ← @dots_nil (start P.cwd path)]
  have hbegin := @dots_name (start P.cwd path) (pieces path)
  generalize dots (start P.cwd path) (pieces path) = d at hbegin ⊢
  obtain ⟨cur, names⟩ := d
  dsimp only at hbegin ⊢
  cases names with
  | nil => simp
  | cons first rest =>
    by_cases hsearch : Searchable P [] cur
    · rw [walk_fromRoot hsearch]
      cases walk P T P.links cur (first :: rest) with
      | none => simp
      | some r => simp [hsearch]
    · have hnone : walk P.fromRoot T P.links cur (first :: rest) = none := by
        rw [Option.eq_none_iff_forall_ne_some]
        exact fun r hr => hsearch (searched_from_root (hbegin rfl) hr)
      simp [hnone, hsearch]

theorem Realpath_true (h : Rooted P path) {loc : Loc} (hfollow : follow P T path = some loc) (rpath : String) :
    Realpath P T path rpath = (true, absolute loc) := by
  have hsome : (lstat P T path).isSome := lstat_of_access (by rw [access, hfollow]; rfl)
  have hreal := (realpath_eq_some hsome).mpr ⟨h, loc, hfollow, rfl⟩
  obtain ⟨l, hl⟩ := Option.isSome_iff_exists.mp hsome
  rw [Realpath, hl, hreal]
  rfl

theorem Realpath_false (h : ¬(Rooted P path ∧ (follow P T path).isSome)) (rpath : String) :
    Realpath P T path rpath = (false, rpath) := by
  unfold Realpath
  split
  · rfl
  · next hsome =>
    have hsome : (lstat P T path).isSome := by simpa [Option.isSome_iff_ne_none] using hsome
    have hnone : realpath P T path = none := by
      rw [Option.eq_none_iff_forall_ne_some]
      intro text htext
      obtain ⟨hroot, loc, hloc, -⟩ := (realpath_eq_some hsome).mp htext
      exact h ⟨hroot, Option.isSome_of_mem hloc⟩
    rw [hnone]

theorem Realpath_iff (rpath : String) :
    (Realpath P T path rpath).1 = true ↔ Rooted P path ∧ (follow P T path).isSome := by
  constructor
  · intro htrue
    by_contra hno
    rw [Realpath_false hno] at htrue
    cases htrue
  · rintro ⟨hroot, hsome⟩
    obtain ⟨loc, hloc⟩ := Option.isSome_iff_exists.mp hsome
    rw [Realpath_true hroot hloc]

/-- What a path with a name leads to lies below directories that may be searched. -/
theorem searchable_of_rooted (h : Rooted P path) (hfollow : follow P T path = some loc) {piece : String}
    (hpiece : piece ∈ pieces path) (hname : ¬Special piece) : Searchable P [] loc := by
  rcases h with hall | hsearch
  · exact absurd (hall piece hpiece) hname
  · obtain ⟨-, links, hwalk⟩ := follow_iff.mp hfollow
    exact searchable_walk hsearch (walk_dots hwalk)

/-- Realpath succeeds on the paths that lead somewhere and are rooted, and else leaves
    `rpath` alone. It gives the same text for two paths exactly if they lead to the same
    location. If the path has a name, the directories above that may be searched; and where
    they may, and only there, the text leads to it too and is its own real path. -/
theorem realpath_canonical (P : Process) (T : Tree) (path rpath : String) :
    ((Realpath P T path rpath).1 = true ↔ Rooted P path ∧ (follow P T path).isSome) ∧
    ((Realpath P T path rpath).1 = false → (Realpath P T path rpath).2 = rpath) ∧
    (∀ path', (Realpath P T path rpath).1 = true → (Realpath P T path' rpath).1 = true →
      ((Realpath P T path' rpath).2 = (Realpath P T path rpath).2 ↔ follow P T path' = follow P T path)) ∧
    ∀ loc, follow P T path = some loc → (Realpath P T path rpath).1 = true →
      (∀ l, follow P T (Realpath P T path rpath).2 = some l ↔ l = loc ∧ Searchable P [] loc) ∧
      ((∃ piece ∈ pieces path, ¬Special piece) → Searchable P [] loc) ∧
      (Searchable P [] loc → ∀ rpath',
        Realpath P T (Realpath P T path rpath).2 rpath' = (true, (Realpath P T path rpath).2)) := by
  have hentry : ∀ {path : String} {loc : Loc}, follow P T path = some loc → (T.entry loc).isSome := by
    intro path loc hfollow
    obtain ⟨-, links, hwalk⟩ := follow_iff.mp hfollow
    exact walk_isSome (pieces_ne_nil path) hwalk
  refine ⟨Realpath_iff rpath, ?_, ?_, ?_⟩
  · intro hfalse
    have hno : ¬(Rooted P path ∧ (follow P T path).isSome) := by
      rw [← Realpath_iff rpath, hfalse]
      exact Bool.false_ne_true
    rw [Realpath_false hno]
  · intro path' htrue htrue'
    obtain ⟨hroot, hsome⟩ := (Realpath_iff rpath).mp htrue
    obtain ⟨hroot', hsome'⟩ := (Realpath_iff rpath).mp htrue'
    obtain ⟨loc, hloc⟩ := Option.isSome_iff_exists.mp hsome
    obtain ⟨loc', hloc'⟩ := Option.isSome_iff_exists.mp hsome'
    rw [Realpath_true hroot hloc, Realpath_true hroot' hloc', hloc, hloc', Option.some_inj]
    exact ⟨absolute_inj (hentry hloc') (hentry hloc), congrArg absolute⟩
  · intro loc hloc htrue
    have hroot := ((Realpath_iff rpath).mp htrue).1
    rw [Realpath_true hroot hloc]
    refine ⟨follow_absolute hloc, ?_, ?_⟩
    · rintro ⟨piece, hpiece, hname⟩
      exact searchable_of_rooted hroot hloc hpiece hname
    · intro hsearch rpath'
      have hstart : Searchable P [] (start P.cwd (absolute loc)) := by
        rw [start_absolute]
        exact searchable_self P []
      exact Realpath_true (rooted_of_start hstart) ((follow_absolute hloc loc).mpr ⟨rfl, hsearch⟩) rpath'

end Sylar.FSUtil
