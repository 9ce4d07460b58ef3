/-
  Sylar.Util.Mkdir — `FSUtil::Mkdir` (sylar/util.cpp lines 160-199).

  The path is cut at every slash after its first character, and each of these prefixes, then
  the path, is made where access does not find it. `made` records the names given to mkdir
  with success.

  Proved: Mkdir changes no entry, makes only directories that were missing, in order, and
  returns false only where one could not be made; a path that access finds has directories
  at its slashes. What it returns true for is a directory exactly when the path names one
  if lstat finds it, and a path with `..` that lstat does not find leads back, from the
  directories made for it, to nothing that was there and is no directory
  (`dirPromise_iff`).
-/

import Sylar.Util.FileSystem

namespace Sylar.FSUtil

/-- A path that is not empty. -/
structure Path where
  first : Char
  rest : List Char

def Path.text (path : Path) : String := String.ofList (path.first :: path.rest)

/-- The tree, and the names of the directories made in it. -/
structure Progress where
  tree : Tree
  made : List String

section

variable (P : Process)

/-- `__mkdir`. -/
def mkdirOnce (s : Progress) (dirname : String) : Bool × Progress :=
  if access P s.tree dirname then (true, s)
  else
    match mkdir P s.tree dirname 0o775 with
    | (true, tree) => (true, ⟨tree, s.made ++ [dirname]⟩)
    | (false, tree) => (false, ⟨tree, s.made⟩)

/-- The loop over the slashes; `before` is the path up to the character at `ptr`. -/
def makeParents (before : List Char) : List Char → Progress → Bool × Progress
  | [], s => (true, s)
  | c :: rest, s =>
    if c = '/' then
      match mkdirOnce P s (String.ofList before) with
      | (true, s) => makeParents (before ++ [c]) rest s
      | (false, s) => (false, s)
    else makeParents (before ++ [c]) rest s

def Mkdir (T : Tree) (dirname : Path) : Bool × Progress :=
  if (lstat P T dirname.text).isSome then (true, ⟨T, []⟩)
  else
    match makeParents P [dirname.first] dirname.rest ⟨T, []⟩ with
    | (true, s) => mkdirOnce P s dirname.text
    | (false, s) => (false, s)

/-! ## The promise -/

/-- The path names a directory. -/
def IsDir (T : Tree) (path : String) : Prop := ∃ loc, follow P T path = some loc ∧ T.isDir loc

/-- The prefixes that end before a slash. -/
def cuts (before : List Char) : List Char → List String
  | [] => []
  | c :: rest => if c = '/' then String.ofList before :: cuts (before ++ [c]) rest else cuts (before ++ [c]) rest

def Path.parents (path : Path) : List String := cuts [path.first] path.rest

/-- What Mkdir should do, given what it returns and what it leaves. -/
structure DirPromise (T : Tree) (path : Path) (ret : Bool) (s : Progress) : Prop where
  directories : ret = true → IsDir P s.tree path.text ∧
    ∀ front back, path.first :: path.rest = front ++ '/' :: back → IsDir P s.tree (String.ofList (front ++ ['/']))
  unchanged : T.Sub s.tree
  missing : ∀ name ∈ s.made, access P T name = false
  ordered : s.made.Sublist (path.parents ++ [path.text])
  only : ∀ loc, T.entry loc = none → (s.tree.entry loc).isSome → ∃ name ∈ s.made, follow P s.tree name = some loc
  failed : ret = false → ∃ name ∈ path.parents ++ [path.text],
    access P s.tree name = false ∧ (mkdir P s.tree name 0o775).1 = false

/-- Each of the names is there, or is made a directory. -/
inductive Made : List String → Tree → Tree → Prop
  | done {T : Tree} : Made [] T T
  | there {name : String} {names : List String} {T T' : Tree} : access P T name = true → Made names T T' →
      Made (name :: names) T T'
  | new {name : String} {names : List String} {T T₁ T' : Tree} : access P T name = false →
      mkdir P T name 0o775 = (true, T₁) → Made names T₁ T' → Made (name :: names) T T'

/-- To an entry that is there, by way of directories that are still to be made. -/
def LeadsBack (T : Tree) (path : Path) (loc : Loc) : Prop :=
  (T.entry loc).isSome ∧ ∃ T', Made P path.parents T T' ∧ follow P T' path.text = some loc

end

/-! ## One directory -/

section

variable {P : Process} {T T' : Tree} {name : String} {s s' : Progress} {ret : Bool}

theorem mkdir_cases (P : Process) (T : Tree) (path : String) (mode : BitVec 12) :
    mkdir P T path mode = (false, T) ∨
    ∃ dir name T', stripped P T path = some (dir, name) ∧ mkdir P T path mode = (true, T') ∧
      T.entry (name :: dir) = none ∧
      ∀ l, T'.entry l = if l = name :: dir then some ⟨.DIR, mode &&& ~~~P.umask⟩ else T.entry l := by
  cases hstripped : stripped P T path with
  | none =>
    rw [mkdir, hstripped]
    exact .inl rfl
  | some r =>
    obtain ⟨dir, name⟩ := r
    by_cases h : T.entry (name :: dir) = none ∧ T.isDir dir ∧ Proper name ∧ P.may.make (name :: dir) = true
    · refine .inr ⟨dir, name, _, rfl, ?_, h.1, T.entry_add name dir _ h.1 h.2.1 h.2.2.1⟩
      rw [mkdir, hstripped]
      exact dif_pos h
    · rw [mkdir, hstripped]
      exact .inl (dif_neg h)

/-- A directory that was made is new, is what the path names, and is all that is new. -/
theorem mkdir_true {mode : BitVec 12} (h : mkdir P T name mode = (true, T')) :
    T.Sub T' ∧ ∃ loc, follow P T' name = some loc ∧ T'.isDir loc ∧ T.entry loc = none ∧
      ∀ l, l ≠ loc → T'.entry l = T.entry l := by
  rcases mkdir_cases P T name mode with hfalse | ⟨dir, last, T₁, hstripped, htrue, hnew, hentry⟩
  · rw [hfalse] at h
    cases h
  · rw [htrue] at h
    cases h
    have hsub : T.Sub T' := by
      intro l e he
      have hne : l ≠ last :: dir := by
        rintro rfl
        rw [hnew] at he
        cases he
      rw [hentry, if_neg hne]
      exact he
    have he : (⟨.DIR, mode &&& ~~~P.umask⟩ : Entry) ∈ T'.entry (last :: dir) := by
      rw [hentry, if_pos rfl]
      rfl
    have hfound := lstat_stripped (parent_mono hsub hstripped) ⟨_, he, rfl⟩
    refine ⟨hsub, last :: dir, follow_lstat hfound he nofun, ⟨_, he, rfl⟩, hnew, fun l hl => ?_⟩
    rw [hentry, if_neg hl]

theorem access_mono (h : T.Sub T') (hname : access P T name = true) : access P T' name = true := by
  obtain ⟨loc, hloc⟩ := Option.isSome_iff_exists.mp hname
  exact Option.isSome_iff_exists.mpr ⟨loc, follow_mono h hloc⟩

/-- Could not be made: not there, and refused by mkdir. -/
def Refused (P : Process) (T : Tree) (name : String) : Prop :=
  access P T name = false ∧ (mkdir P T name 0o775).1 = false

theorem mkdirOnce_cases (P : Process) (s : Progress) (name : String) :
    (access P s.tree name = true ∧ mkdirOnce P s name = (true, s)) ∨
    (∃ tree, access P s.tree name = false ∧ mkdir P s.tree name 0o775 = (true, tree) ∧
      mkdirOnce P s name = (true, ⟨tree, s.made ++ [name]⟩)) ∨
    Refused P s.tree name ∧ mkdirOnce P s name = (false, s) := by
  unfold mkdirOnce
  cases haccess : access P s.tree name with
  | true => exact .inl ⟨rfl, rfl⟩
  | false =>
    rcases mkdir_cases P s.tree name 0o775 with hfalse | ⟨-, -, tree, -, htrue, -⟩
    · refine .inr (.inr ⟨⟨haccess, ?_⟩, ?_⟩)
      · rw [hfalse]
      · rw [hfalse]
        rfl
    · refine .inr (.inl ⟨tree, rfl, htrue, ?_⟩)
      rw [htrue]
      rfl

/-! ## What is made on the way -/

/-- The state after the names, or some of the first of them, were tried. -/
structure Grown (P : Process) (T : Tree) (names : List String) (s : Progress) : Prop where
  sub : T.Sub s.tree
  missing : ∀ name ∈ s.made, access P T name = false
  ordered : s.made.Sublist names
  only : ∀ loc, T.entry loc = none → (s.tree.entry loc).isSome → ∃ name ∈ s.made, follow P s.tree name = some loc

theorem Grown.start (P : Process) (T : Tree) : Grown P T [] ⟨T, []⟩ where
  sub := .refl T
  missing := nofun
  ordered := .slnil
  only loc hnone hsome := by
    rw [hnone] at hsome
    cases hsome

theorem Grown.more {names : List String} (h : Grown P T names s) (later : List String) : Grown P T (names ++ later) s :=
  ⟨h.sub, h.missing, h.ordered.trans (List.sublist_append_left names later), h.only⟩

/-- One more directory. -/
theorem Grown.make {names : List String} {tree : Tree} (h : Grown P T names s)
    (hmissing : access P s.tree name = false) (hmake : mkdir P s.tree name 0o775 = (true, tree)) :
    Grown P T (names ++ [name]) ⟨tree, s.made ++ [name]⟩ := by
  obtain ⟨hsub, loc, hloc, hdir, hnew, hsame⟩ := mkdir_true hmake
  refine ⟨h.sub.trans hsub, fun name' hin => ?_, h.ordered.append (.refl _), fun l hnone hsome => ?_⟩
  · rcases List.mem_append.mp hin with hin | hin
    · exact h.missing name' hin
    · rw [List.mem_singleton.mp hin]
      by_contra hthere
      rw [Bool.not_eq_false] at hthere
      exact absurd (hmissing.symm.trans (access_mono h.sub hthere)) (by decide)
  · by_cases hl : l = loc
    · exact ⟨name, List.mem_append_right _ (.head _), hl ▸ hloc⟩
    · dsimp only at hsome
      rw [hsame l hl] at hsome
      obtain ⟨name', hin, hfollow⟩ := h.only l hnone hsome
      exact ⟨name', List.mem_append_left _ hin, follow_mono hsub hfollow⟩

theorem mkdirOnce_grown {names : List String} (h : Grown P T names s) (name : String) :
    Grown P T (names ++ [name]) (mkdirOnce P s name).2 := by
  rcases mkdirOnce_cases P s name with ⟨-, heq⟩ | ⟨tree, hmissing, hmake, heq⟩ | ⟨-, heq⟩
  · rw [heq]
    exact h.more [name]
  · rw [heq]
    exact h.make hmissing hmake
  · rw [heq]
    exact h.more [name]

/-- `Made` goes by what `mkdirOnce` does. -/
theorem made_cons_iff {names : List String} : Made P (name :: names) s.tree T' ↔
    ∃ s₁, mkdirOnce P s name = (true, s₁) ∧ Made P names s₁.tree T' := by
  rcases mkdirOnce_cases P s name with ⟨hthere, heq⟩ | ⟨tree, hmissing, hmake, heq⟩ | ⟨hno, heq⟩
  · rw [heq]
    constructor
    · intro h
      cases h with
      | there _ h => exact ⟨s, rfl, h⟩
      | new hmissing => exact absurd (hmissing.symm.trans hthere) (by decide)
    · rintro ⟨s₁, hs₁, h⟩
      cases hs₁
      exact .there hthere h
  · rw [heq]
    constructor
    · intro h
      cases h with
      | there hthere => exact absurd (hmissing.symm.trans hthere) (by decide)
      | new _ hmake' h =>
        cases hmake.symm.trans hmake'
        exact ⟨_, rfl, h⟩
    · rintro ⟨s₁, hs₁, h⟩
      cases hs₁
      exact .new hmissing hmake h
  · rw [heq]
    constructor
    · intro h
      cases h with
      | there hthere => exact absurd (hno.1.symm.trans hthere) (by decide)
      | new _ hmake =>
        have hfalse := hno.2
        rw [hmake] at hfalse
        cases hfalse
    · rintro ⟨s₁, hs₁, -⟩
      cases hs₁

theorem refused_of_false (h : mkdirOnce P s name = (false, s')) : s' = s ∧ Refused P s.tree name := by
  rcases mkdirOnce_cases P s name with ⟨-, heq⟩ | ⟨tree, -, -, heq⟩ | ⟨hno, heq⟩
  · cases heq.symm.trans h
  · cases heq.symm.trans h
  · cases heq.symm.trans h
    exact ⟨rfl, hno⟩

/-- The loop over the slashes leaves the names before them tried, up to the first that is refused. -/
theorem makeParents_grown {names : List String} {before rest : List Char} (h : Grown P T names s)
    (hrun : makeParents P before rest s = (ret, s')) :
    Grown P T (names ++ cuts before rest) s' ∧ (ret = true → Made P (cuts before rest) s.tree s'.tree) ∧
      (ret = false → ∃ name ∈ cuts before rest, Refused P s'.tree name) := by
  induction rest generalizing before names s with
  | nil =>
    cases hrun
    exact ⟨h.more [], fun _ => .done, nofun⟩
  | cons c rest ih =>
    rw [makeParents] at hrun
    rw [cuts]
    split at hrun
    · next hc =>
      rw [if_pos hc]
      have hone := mkdirOnce_grown h (String.ofList before)
      split at hrun
      · next s₁ heq =>
        rw [heq] at hone
        obtain ⟨hgrown, hmade, hrefused⟩ := ih hone hrun
        rw [List.append_assoc] at hgrown
        exact ⟨hgrown, fun hret => made_cons_iff.mpr ⟨s₁, heq, hmade hret⟩, fun hret =>
          (hrefused hret).imp fun name h => ⟨.tail _ h.1, h.2⟩⟩
      · next s₁ heq =>
        cases hrun
        obtain ⟨rfl, hno⟩ := refused_of_false heq
        exact ⟨h.more _, nofun, fun _ => ⟨_, .head _, hno⟩⟩
    · next hc =>
      rw [if_neg hc]
      exact ih h hrun

/-- The tree with the missing directories made is the one that the loop leaves. -/
theorem makeParents_made {before rest : List Char} (h : Made P (cuts before rest) s.tree T') :
    ∃ made, makeParents P before rest s = (true, ⟨T', made⟩) := by
  induction rest generalizing before s with
  | nil =>
    cases h
    exact ⟨s.made, rfl⟩
  | cons c rest ih =>
    rw [cuts] at h
    rw [makeParents]
    split at h
    · next hc =>
      obtain ⟨s₁, heq, h⟩ := made_cons_iff.mp h
      rw [if_pos hc, heq]
      exact ih h
    · next hc =>
      rw [if_neg hc]
      exact ih h

/-! ## Directories at the slashes -/

theorem move_isDir {cur : Loc} {piece : String} {m : Move} (h : move P T cur piece = some m) : T.isDir cur := by
  unfold move at h
  split at h
  · split at h
    · next hdir => exact hdir
    · cases h
  · split at h
    · next hdir => exact hdir.1
    · cases h

theorem walk_isDir {links : Nat} {cur : Loc} {names : List String} (hne : names ≠ []) {r : Nat × Loc}
    (h : walk P T links cur names = some r) : T.isDir cur := by
  obtain ⟨piece, rest, rfl⟩ := List.exists_cons_of_ne_nil hne
  rcases walk_cons h with ⟨loc, hmove, -⟩ | ⟨target, hmove⟩
  · exact move_isDir hmove
  · exact move_isDir hmove

theorem text_split {path : Path} {front back : List Char} (h : path.first :: path.rest = front ++ '/' :: back) :
    path.text = String.ofList front ++ "/" ++ String.ofList back := by
  rw [Path.text, h, String.ofList_append, String.ofList_cons, String.append_assoc]
  rfl

/-- Where a path is found, its slashes have directories before them. -/
theorem isDir_front {path : Path} {front back : List Char} (h : access P T path.text = true)
    (hsplit : path.first :: path.rest = front ++ '/' :: back) : IsDir P T (String.ofList (front ++ ['/'])) := by
  obtain ⟨loc, hloc⟩ := Option.isSome_iff_exists.mp h
  obtain ⟨-, links, hwalk⟩ := follow_iff.mp hloc
  have htext := text_split hsplit
  have hfront : String.ofList (front ++ ['/']) = String.ofList front ++ "/" ++ "" := by
    rw [String.ofList_append, String.append_empty]
  have hstart : start P.cwd path.text = start P.cwd (String.ofList (front ++ ['/'])) := by
    rw [start, start, Path.text, hsplit, String.toList_ofList, String.toList_ofList]
    cases front <;> rfl
  rw [htext, pieces_append, walk_append] at hwalk
  obtain ⟨⟨links', cur⟩, hmid, hlast⟩ := Option.bind_eq_some_iff.mp hwalk
  have hdir := walk_isDir (pieces_ne_nil _) hlast
  refine ⟨cur, follow_iff.mpr ⟨?_, links', ?_⟩, hdir⟩
  · intro hempty
    have hlist := congrArg String.toList hempty
    rw [String.toList_ofList] at hlist
    exact List.append_ne_nil_of_right_ne_nil front (List.cons_ne_nil _ _) hlist
  · rw [← hstart, hfront, pieces_append, walk_append, htext, hmid]
    exact walk_empties hdir (by simp [pieces_name])

/-! ## Without dots -/

theorem Made.sub {names : List String} (h : Made P names T T') : T.Sub T' := by
  induction h with
  | done => exact .refl _
  | there _ _ ih => exact ih
  | new _ hmake _ ih => exact (mkdir_true hmake).1.trans ih

theorem Made.unique {names : List String} {T₁ T₂ : Tree} (h₁ : Made P names T T₁) (h₂ : Made P names T T₂) :
    T₁ = T₂ := by
  induction h₁ with
  | done =>
    cases h₂
    rfl
  | there hthere _ ih =>
    cases h₂ with
    | there _ h => exact ih h
    | new hmissing => exact absurd (hmissing.symm.trans hthere) (by decide)
  | new hmissing hmake _ ih =>
    cases h₂ with
    | there hthere => exact absurd (hmissing.symm.trans hthere) (by decide)
    | new _ hmake' h =>
      cases hmake.symm.trans hmake'
      exact ih h

/-- Only directories are new. -/
theorem Made.new_isDir {names : List String} (h : Made P names T T') {loc : Loc} (hnone : T.entry loc = none)
    (hsome : (T'.entry loc).isSome) : T'.isDir loc := by
  induction h with
  | done =>
    rw [hnone] at hsome
    cases hsome
  | there _ _ ih => exact ih hnone hsome
  | @new name names T T₁ T' _ hmake hrest ih =>
    obtain ⟨-, loc', -, hdir, -, hsame⟩ := mkdir_true hmake
    by_cases hloc : loc = loc'
    · exact hloc ▸ hrest.sub.isDir hdir
    · exact ih ((hsame loc hloc).trans hnone) hsome

/-- Nothing is made, or there is a first directory that is. -/
theorem Made.first {names : List String} (h : Made P names T T') :
    T' = T ∨ ∃ name ∈ names, ∃ T₁, mkdir P T name 0o775 = (true, T₁) ∧ T₁.Sub T' := by
  induction h with
  | done => exact .inl rfl
  | there _ _ ih => exact ih.imp_right fun ⟨name, hin, h⟩ => ⟨name, .tail _ hin, h⟩
  | new _ hmake hrest _ => exact .inr ⟨_, .head _, _, hmake, hrest.sub⟩

/-- A directory that was not there is left by `..` only. -/
theorem move_new (hnew : ∀ loc, T.entry loc = none → (T'.entry loc).isSome → T'.isDir loc) {cur : Loc}
    (hcur : T.entry cur = none) {piece : String} (hdots : piece ≠ "..") {m : Move} (h : move P T' cur piece = some m) :
    ∃ loc, m = .to loc ∧ T.entry loc = none := by
  unfold move at h
  split at h
  · split at h
    · cases h
      exact ⟨cur, rfl, hcur⟩
    · cases h
  · split at h
    · split at h
      · cases h
        exact ⟨cur, rfl, hcur⟩
      · obtain ⟨e, he, hm⟩ := Option.map_eq_some_iff.mp h
        have hnone : T.entry (piece :: cur) = none := by
          by_contra hsome
          have hdir := Tree.isDir_isSome (T.closed piece cur (Option.ne_none_iff_isSome.mp hsome))
          rw [hcur] at hdir
          cases hdir
        obtain ⟨e', he', hkind⟩ := hnew _ hnone (Option.isSome_of_mem he)
        cases he.symm.trans he'
        rw [hkind] at hm
        exact ⟨piece :: cur, hm.symm, hnone⟩
    · cases h

theorem walk_new (hnew : ∀ loc, T.entry loc = none → (T'.entry loc).isSome → T'.isDir loc) {names : List String}
    {links : Nat} {cur : Loc} (hcur : T.entry cur = none) (hdots : ".." ∉ names) {r : Nat × Loc}
    (h : walk P T' links cur names = some r) : T.entry r.2 = none := by
  induction names generalizing cur with
  | nil =>
    cases (walk_nil links cur).symm.trans h
    exact hcur
  | cons piece names ih =>
    have hpiece := (List.ne_of_not_mem_cons hdots).symm
    rcases walk_cons h with ⟨loc, hmove, hrest⟩ | ⟨target, hmove⟩
    · obtain ⟨_, hto, hloc⟩ := move_new hnew hcur hpiece hmove
      cases hto
      exact ih hloc (List.not_mem_of_not_mem_cons hdots) hrest
    · obtain ⟨_, hto, -⟩ := move_new hnew hcur hpiece hmove
      cases hto

theorem lstat_of_access {path : String} (h : access P T path = true) : (lstat P T path).isSome := by
  obtain ⟨loc, hloc⟩ := Option.isSome_iff_exists.mp h
  rcases List.eq_nil_or_concat (pieces path) with hnil | ⟨front, last, hpieces⟩
  · exact absurd hnil (pieces_ne_nil path)
  · rw [List.concat_eq_append] at hpieces
    by_cases hlast : Special last
    · rw [lstat_special hpieces hlast, hloc]
      rfl
    · obtain ⟨-, links, hwalk⟩ := follow_iff.mp hloc
      rw [hpieces, walk_append] at hwalk
      obtain ⟨⟨links', cur⟩, hfront, hend⟩ := Option.bind_eq_some_iff.mp hwalk
      obtain ⟨m, hmove⟩ : ∃ m, move P T cur last = some m := by
        rcases walk_cons hend with ⟨loc, hmove, -⟩ | ⟨target, hmove⟩
        · exact ⟨_, hmove⟩
        · exact ⟨_, hmove⟩
      rcases move_cases hmove with ⟨hspecial, -⟩ | ⟨-, hdir, hsearch, e, he, -⟩
      · exact absurd hspecial hlast
      · have hwhole : whole P T path = some (cur, last) :=
          whole_iff.mpr ⟨front, hpieces, hlast, ⟨links', hfront⟩, hdir, hsearch⟩
        rw [lstat_whole hwhole, if_pos (Option.isSome_of_mem he)]
        rfl

theorem cuts_split {before rest : List Char} (h : name ∈ cuts before rest) :
    ∃ front back, rest = front ++ '/' :: back ∧ name = String.ofList (before ++ front) := by
  induction rest generalizing before with
  | nil => cases h
  | cons c rest ih =>
    have hlater : name ∈ cuts (before ++ [c]) rest →
        ∃ front back, c :: rest = front ++ '/' :: back ∧ name = String.ofList (before ++ front) := by
      intro h
      obtain ⟨front, back, rfl, rfl⟩ := ih h
      exact ⟨c :: front, back, rfl, by rw [List.append_assoc]; rfl⟩
    rw [cuts] at h
    split at h
    · next hc =>
      rcases List.mem_cons.mp h with rfl | h
      · exact ⟨[], rest, by rw [hc]; rfl, by rw [List.append_nil]⟩
      · exact hlater h
    · exact hlater h

/-- Once the missing directories are made, a path without `..` that is found, and was not
before, is one of them or in one. -/
theorem made_isDir {path : Path} (hnone : lstat P T path.text = none) (hdots : ".." ∉ pieces path.text)
    (hmade : Made P path.parents T T') (h : access P T' path.text = true) : IsDir P T' path.text := by
  obtain ⟨loc, hloc⟩ := Option.isSome_iff_exists.mp h
  obtain ⟨hne, links, hwalk⟩ := follow_iff.mp hloc
  refine ⟨loc, hloc, ?_⟩
  rcases hmade.first with rfl | ⟨name, hin, T₁, hmake, hsub⟩
  · have hsome := lstat_of_access h
    rw [hnone] at hsome
    cases hsome
  · obtain ⟨front, back, hrest, hname⟩ := cuts_split hin
    rcases mkdir_cases P T name 0o775 with hfalse | ⟨dir, last, T₂, hstripped, htrue, hnew, hentry⟩
    · rw [hfalse] at hmake
      cases hmake
    · cases htrue.symm.trans hmake
      obtain ⟨before, slashes, hpieces, -, hlast, ⟨links', hbefore⟩, hdir, hsearch⟩ := stripped_cases hstripped
      have htext : path.text = name ++ "/" ++ String.ofList back := by
        rw [hname]
        exact text_split (congrArg (path.first :: ·) hrest)
      have hstart : start P.cwd path.text = start P.cwd name := by
        rw [htext, start_sub _ (path_ne_of_stripped hstripped)]
      have hall : pieces path.text = before ++ ([last] ++ (slashes ++ pieces (String.ofList back))) := by
        rw [htext, pieces_append, hpieces, List.append_assoc, List.append_assoc]
      -- The walk comes to the first directory made, and goes on from there.
      have he : (⟨.DIR, 0o775 &&& ~~~P.umask⟩ : Entry) ∈ T'.entry (last :: dir) := by
        refine hsub _ _ ?_
        rw [hentry, if_pos rfl]
        rfl
      have hmove := move_name hlast (hmade.sub.isDir hdir) hsearch he nofun
      rw [hstart, hall, walk_append, walk_mono hmade.sub hbefore] at hwalk
      have hrest' : walk P T' links' (last :: dir) (slashes ++ pieces (String.ofList back)) = some (links, loc) := by
        have hnext := (walk_append P T' links' dir [last] _).symm.trans hwalk
        rwa [walk_one hmove, Option.bind_some] at hnext
      have hdots' : ".." ∉ slashes ++ pieces (String.ofList back) := fun hin => hdots (by
        rw [hall]
        exact List.mem_append_right _ (List.mem_append_right _ hin))
      have hloc' : T.entry loc = none := walk_new (fun _ => hmade.new_isDir) hnew hdots' hrest'
      refine hmade.new_isDir hloc' (walk_isSome ?_ hrest')
      exact List.append_ne_nil_of_right_ne_nil _ (pieces_ne_nil _)

/-! ## When the promise is kept -/

theorem access_of_isDir {path : String} (h : IsDir P T path) : access P T path = true := by
  obtain ⟨loc, hloc, -⟩ := h
  rw [access, hloc]
  rfl

theorem Grown.promise {path : Path} (h : Grown P T (path.parents ++ [path.text]) s)
    (hdir : ret = true → IsDir P s.tree path.text)
    (hfailed : ret = false → ∃ name ∈ path.parents ++ [path.text], Refused P s.tree name) :
    DirPromise P T path ret s where
  directories hret := ⟨hdir hret, fun _ _ hsplit => isDir_front (access_of_isDir (hdir hret)) hsplit⟩
  unchanged := h.sub
  missing := h.missing
  ordered := h.ordered
  only := h.only
  failed := hfailed

/-- The last step of Mkdir, after the directories before the path. -/
theorem lastPromise_iff {path : Path} (h : Grown P T path.parents s) :
    DirPromise P T path (mkdirOnce P s path.text).1 (mkdirOnce P s path.text).2 ↔
      (access P s.tree path.text = true → IsDir P s.tree path.text) := by
  have hone := mkdirOnce_grown h path.text
  rcases mkdirOnce_cases P s path.text with ⟨hthere, heq⟩ | ⟨tree, hmissing, hmake, heq⟩ | ⟨hno, heq⟩
  · rw [heq] at hone ⊢
    exact ⟨fun h _ => (h.directories rfl).1, fun h => hone.promise (fun _ => h hthere) nofun⟩
  · rw [heq] at hone ⊢
    obtain ⟨-, loc, hloc, hdir, -⟩ := mkdir_true hmake
    refine ⟨fun _ hthere => ?_, fun _ => hone.promise (fun _ => ⟨loc, hloc, hdir⟩) nofun⟩
    exact absurd (hmissing.symm.trans hthere) (by decide)
  · rw [heq] at hone ⊢
    have hin : path.text ∈ path.parents ++ [path.text] := List.mem_append_right _ (.head _)
    refine ⟨fun _ hthere => ?_, fun _ => hone.promise nofun fun _ => ⟨path.text, hin, hno⟩⟩
    exact absurd (hno.1.symm.trans hthere) (by decide)

/-- What is found once the directories are made is one exactly when all that the path leads
back to is. -/
theorem made_access_iff {path : Path} (hnone : lstat P T path.text = none) (hmade : Made P path.parents T T') :
    (access P T' path.text = true → IsDir P T' path.text) ↔
      (".." ∈ pieces path.text → ∀ loc, LeadsBack P T path loc → T.isDir loc) := by
  constructor
  · intro h _ loc ⟨hsome, T₁, hmade₁, hloc⟩
    obtain ⟨e, he⟩ := Option.isSome_iff_exists.mp hsome
    obtain rfl := hmade₁.unique hmade
    obtain ⟨loc', hloc', e', he', hkind⟩ := h (Option.isSome_of_mem hloc)
    cases hloc.symm.trans hloc'
    cases Option.mem_unique (hmade.sub loc e he) he'
    exact ⟨e, he, hkind⟩
  · intro h hthere
    by_cases hdots : ".." ∈ pieces path.text
    · obtain ⟨loc, hloc⟩ := Option.isSome_iff_exists.mp hthere
      refine ⟨loc, hloc, ?_⟩
      by_cases hsome : (T.entry loc).isSome
      · exact hmade.sub.isDir (h hdots loc ⟨hsome, T', hmade, hloc⟩)
      · obtain ⟨-, links, hwalk⟩ := follow_iff.mp hloc
        exact hmade.new_isDir (Option.not_isSome_iff_eq_none.mp hsome) (walk_isSome (pieces_ne_nil _) hwalk)
    · exact made_isDir hnone hdots hmade hthere

theorem dirPromise_iff (P : Process) (T : Tree) (path : Path) :
    DirPromise P T path (Mkdir P T path).1 (Mkdir P T path).2 ↔
      ((lstat P T path.text).isSome → IsDir P T path.text) ∧
      (lstat P T path.text = none → ".." ∈ pieces path.text → ∀ loc, LeadsBack P T path loc → T.isDir loc) := by
  by_cases hfound : (lstat P T path.text).isSome
  · have hrun : Mkdir P T path = (true, ⟨T, []⟩) := if_pos hfound
    rw [hrun]
    constructor
    · intro h
      refine ⟨fun _ => (h.directories rfl).1, fun hnone => ?_⟩
      rw [hnone] at hfound
      cases hfound
    · intro h
      exact ((Grown.start P T).more _).promise (fun _ => h.1 hfound) nofun
  · have hnone : lstat P T path.text = none := Option.not_isSome_iff_eq_none.mp hfound
    obtain ⟨ret, s, hparents⟩ : ∃ ret s, makeParents P [path.first] path.rest ⟨T, []⟩ = (ret, s) := ⟨_, _, rfl⟩
    obtain ⟨hgrown, hmade, hrefused⟩ := makeParents_grown (Grown.start P T) hparents
    rw [List.nil_append] at hgrown
    rw [Mkdir, if_neg hfound, hparents]
    cases ret with
    | false =>
      constructor
      · intro _
        refine ⟨fun h => absurd h hfound, fun _ _ _ ⟨_, T', h, _⟩ => ?_⟩
        -- The loop is the only way to the tree that the condition speaks of.
        obtain ⟨made, heq⟩ := makeParents_made (s := ⟨T, []⟩) h
        cases hparents.symm.trans heq
      · intro _
        refine (hgrown.more _).promise nofun fun _ => ?_
        obtain ⟨name, hin, hno⟩ := hrefused rfl
        exact ⟨name, List.mem_append_left _ hin, hno⟩
    | true =>
      rw [lastPromise_iff hgrown, made_access_iff hnone (hmade rfl)]
      exact ⟨fun h => ⟨fun hsome => absurd hsome hfound, fun _ => h⟩, fun h => h.2 hnone⟩

end

/-! ## A file in the place of the directory -/

theorem proper_f : Proper "f" := by decide

/-- The file system with a regular file /f. -/
def fileTree : Tree := rootWith "f" proper_f ⟨.REG, 0o644⟩

def filePath : Path := ⟨'/', ['f']⟩

theorem file_taken_for_directory :
    ¬ DirPromise anything fileTree filePath (Mkdir anything fileTree filePath).1
      (Mkdir anything fileTree filePath).2 := by
  intro h
  have hfound : lstat anything fileTree filePath.text = some ["f"] := lstat_rootWith proper_f _
  have hrun : Mkdir anything fileTree filePath = (true, ⟨fileTree, []⟩) := if_pos (Option.isSome_of_mem hfound)
  have hentry : ⟨.REG, 0o644⟩ ∈ fileTree.entry ["f"] := entry_rootWith proper_f _
  rw [hrun] at h
  obtain ⟨⟨loc, hloc, hdir⟩, -⟩ := h.directories rfl
  cases (follow_lstat hfound hentry nofun).symm.trans hloc
  obtain ⟨e, he, hkind⟩ := hdir
  cases Option.mem_unique hentry he
  cases hkind

end Sylar.FSUtil
