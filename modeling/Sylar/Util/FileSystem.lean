/-
  Sylar.Util.FileSystem — what FSUtil (sylar/util.cpp lines 160-285) asks of the system: the
  tree of files, how a path is resolved in it, and lstat, access, opendir, unlink, rmdir and
  mkdir.

  A location lists the names from the innermost up to the root, `[]`. A path is cut at its
  slashes; an empty piece stays where it is and asks for a directory there. What the process
  may do at a location (permissions, mounts, room) is in `Rights`. Hard links and the limits
  on the length of a path and on open directories are left out, and a working directory that
  was removed resolves nothing.

  Proved: a path is resolved piece by piece (`walk_append`), a path through fewer entries
  resolves in every larger tree to the same location (`walk_mono`), and the test of the
  S_IFDIR bit takes sockets and block devices for directories (`ifdir_iff`).
-/

import Mathlib.Data.List.Basic
import Mathlib.Data.List.Nodup
import Mathlib.Data.List.TakeWhile

namespace Sylar.FSUtil

/-! ## Entries -/

abbrev Loc := List String

inductive Kind where
  | DIR
  | REG
  | LNK (target : String)
  | FIFO
  | SOCK
  | CHR
  | BLK
  deriving DecidableEq, Repr

/-- The type bits of st_mode. -/
def Kind.bits : Kind → BitVec 32
  | .FIFO => 0o010000
  | .CHR => 0o020000
  | .DIR => 0o040000
  | .BLK => 0o060000
  | .REG => 0o100000
  | .LNK _ => 0o120000
  | .SOCK => 0o140000

def S_IFDIR : BitVec 32 := 0o040000

structure Entry where
  kind : Kind
  perm : BitVec 12
  deriving DecidableEq, Repr

def Entry.st_mode (e : Entry) : BitVec 32 := e.kind.bits ||| e.perm.setWidth 32

theorem ifdir_iff (e : Entry) : e.st_mode &&& S_IFDIR ≠ 0 ↔ e.kind = .DIR ∨ e.kind = .SOCK ∨ e.kind = .BLK := by
  have hbit : S_IFDIR = BitVec.twoPow 32 14 := by decide
  have hperm : e.perm.getLsbD 14 = false := BitVec.getLsbD_of_ge _ _ (by decide)
  have hst : e.st_mode.getLsbD 14 = e.kind.bits.getLsbD 14 := by
    rw [Entry.st_mode, BitVec.getLsbD_or, BitVec.getLsbD_setWidth, hperm, Bool.and_false, Bool.or_false]
  rw [hbit, BitVec.and_twoPow, hst]
  cases e.kind with
  | LNK target =>
    have hlink : (Kind.LNK target).bits = 0o120000 := rfl
    have hlow : (0o120000 : BitVec 32).getLsbD 14 = false := by decide
    rw [hlink, hlow, if_neg Bool.false_ne_true]
    exact ⟨fun h => absurd rfl h, nofun⟩
  | DIR => decide
  | REG => decide
  | FIFO => decide
  | SOCK => decide
  | CHR => decide
  | BLK => decide

/-! ## The tree -/

def Special (name : String) : Prop := name = "" ∨ name = "." ∨ name = ".."

instance (name : String) : Decidable (Special name) := inferInstanceAs (Decidable (_ ∨ _))

/-- A name an entry can have. -/
def Proper (name : String) : Prop := ¬ Special name ∧ '/' ∉ name.toList

instance (name : String) : Decidable (Proper name) := inferInstanceAs (Decidable (_ ∧ _))

/-- Every entry has its name in a directory. -/
structure Tree where
  entries : List (Loc × Entry)
  nodup : (entries.map Prod.fst).Nodup
  closed : ∀ name dir, (entries.lookup (name :: dir)).isSome → ∃ e ∈ entries.lookup dir, e.kind = .DIR
  proper : ∀ name dir, (entries.lookup (name :: dir)).isSome → Proper name

namespace Tree

def entry (T : Tree) (loc : Loc) : Option Entry := T.entries.lookup loc

def isDir (T : Tree) (loc : Loc) : Prop := ∃ e ∈ T.entry loc, e.kind = .DIR

instance (T : Tree) (loc : Loc) : Decidable (T.isDir loc) :=
  match h : T.entry loc with
  | some e => decidable_of_iff (e.kind = .DIR) (by simp [isDir, h])
  | none => .isFalse (by simp [isDir, h])

/-- The names in a directory. -/
def names (T : Tree) (loc : Loc) : List String :=
  T.entries.filterMap fun e =>
    match e.1 with
    | name :: dir => if dir = loc then some name else none
    | [] => none

theorem entry_isSome {T : Tree} {loc : Loc} : (T.entry loc).isSome ↔ loc ∈ T.entries.map Prod.fst := by
  rw [entry, List.lookup_isSome_iff, List.mem_map]
  exact exists_congr fun e => and_congr_right fun _ => beq_iff_eq.trans eq_comm

theorem isDir_isSome {T : Tree} {loc : Loc} (h : T.isDir loc) : (T.entry loc).isSome := by
  obtain ⟨e, he, -⟩ := h
  exact Option.isSome_of_mem he

theorem mem_names {T : Tree} {name : String} {loc : Loc} :
    name ∈ T.names loc ↔ (T.entry (name :: loc)).isSome := by
  rw [entry_isSome, names, List.mem_filterMap, List.mem_map]
  constructor
  · rintro ⟨⟨at_, e⟩, he, hname⟩
    cases at_ with
    | nil => cases hname
    | cons first dir =>
      obtain ⟨rfl, rfl⟩ : dir = loc ∧ first = name := by simpa using hname
      exact ⟨_, he, rfl⟩
  · rintro ⟨⟨at_, e⟩, he, rfl⟩
    exact ⟨_, he, if_pos rfl⟩

end Tree

theorem lookup_filter (p : Loc → Bool) (entries : List (Loc × Entry)) (loc : Loc) :
    (entries.filter (p ·.1)).lookup loc = if p loc then entries.lookup loc else none := by
  induction entries with
  | nil => simp
  | cons e entries ih =>
    rw [List.filter_cons, List.lookup_cons]
    by_cases hloc : loc = e.1
    · subst hloc
      by_cases hp : p e.1
      · rw [if_pos hp, List.lookup_cons, beq_self_eq_true, if_pos hp]
      · rw [if_neg hp, ih, if_neg hp, if_neg hp]
    · have hne : (loc == e.1) = false := by simpa using hloc
      by_cases hp : p e.1
      · rw [if_pos hp, List.lookup_cons, hne, ih]
      · rw [if_neg hp, ih, hne]

namespace Tree

/-- The entries where `p` holds; it holds of the directory of each of them. -/
def keep (T : Tree) (p : Loc → Bool)
    (h : ∀ name dir, (T.entry (name :: dir)).isSome → p (name :: dir) → p dir) : Tree where
  entries := T.entries.filter (p ·.1)
  nodup := T.nodup.sublist (List.filter_sublist.map _)
  closed := by
    intro name dir hsome
    rw [lookup_filter] at hsome ⊢
    split at hsome
    · next hp =>
      rw [if_pos (h name dir hsome hp)]
      exact T.closed name dir hsome
    · cases hsome
  proper := by
    intro name dir hsome
    rw [lookup_filter] at hsome
    split at hsome
    · exact T.proper name dir hsome
    · cases hsome

@[simp] theorem entry_keep (T : Tree) (p : Loc → Bool) (h) (loc : Loc) :
    (T.keep p h).entry loc = if p loc then T.entry loc else none := lookup_filter p T.entries loc

/-- `loc` has nothing in it. -/
def erase (T : Tree) (loc : Loc) (h : T.names loc = []) : Tree :=
  T.keep (· ≠ loc) fun name dir hsome _ => by
    refine decide_eq_true ?_
    rintro rfl
    rw [← mem_names, h] at hsome
    cases hsome

def add (T : Tree) (name : String) (dir : Loc) (e : Entry) (hnew : T.entry (name :: dir) = none) (hdir : T.isDir dir)
    (hname : Proper name) : Tree where
  entries := (name :: dir, e) :: T.entries
  nodup := by
    refine List.nodup_cons.mpr ⟨fun hin => ?_, T.nodup⟩
    have hsome := entry_isSome.mpr hin
    rw [hnew] at hsome
    cases hsome
  closed := by
    intro name' dir' hsome
    have hkept : ∀ e' ∈ T.entry dir', e'.kind = .DIR →
        ∃ e'' ∈ ((name :: dir, e) :: T.entries).lookup dir', e''.kind = .DIR := by
      intro e' he' hkind
      have hne : (dir' == name :: dir) = false := by
        rw [beq_eq_false_iff_ne]
        rintro rfl
        rw [hnew] at he'
        cases he'
      refine ⟨e', ?_, hkind⟩
      rw [List.lookup_cons, hne]
      exact he'
    rw [List.lookup_cons] at hsome
    split at hsome
    · next heq =>
      obtain ⟨e', he', hkind⟩ := hdir
      cases eq_of_beq heq
      exact hkept e' he' hkind
    · obtain ⟨e', he', hkind⟩ := T.closed name' dir' hsome
      exact hkept e' he' hkind
  proper := by
    intro name' dir' hsome
    rw [List.lookup_cons] at hsome
    split at hsome
    · next heq =>
      cases eq_of_beq heq
      exact hname
    · exact T.proper name' dir' hsome

@[simp] theorem entry_erase (T : Tree) (loc : Loc) (h) (l : Loc) :
    (T.erase loc h).entry l = if l ≠ loc then T.entry l else none := by
  rw [erase, entry_keep]
  simp only [decide_eq_true_eq]

@[simp] theorem entry_add (T : Tree) (name : String) (dir : Loc) (e : Entry) (hnew hdir hname) (l : Loc) :
    (T.add name dir e hnew hdir hname).entry l = if l = name :: dir then some e else T.entry l := by
  rw [entry, add, List.lookup_cons]
  by_cases hl : l = name :: dir
  · rw [if_pos hl, hl, beq_self_eq_true]
  · rw [if_neg hl, beq_eq_false_iff_ne.mpr hl]
    rfl

/-- Every entry of `T` is one of `T'`. -/
def Sub (T T' : Tree) : Prop := ∀ loc, ∀ e ∈ T.entry loc, e ∈ T'.entry loc

theorem Sub.refl (T : Tree) : T.Sub T := fun _ _ he => he

theorem Sub.trans {T T' T'' : Tree} (h : T.Sub T') (h' : T'.Sub T'') : T.Sub T'' :=
  fun loc e he => h' loc e (h loc e he)

theorem Sub.isDir {T T' : Tree} (h : T.Sub T') {loc : Loc} (hdir : T.isDir loc) : T'.isDir loc := by
  obtain ⟨e, he, hkind⟩ := hdir
  exact ⟨e, h loc e he, hkind⟩

theorem keep_sub (T : Tree) (p : Loc → Bool) (h) : (T.keep p h).Sub T := by
  intro loc e he
  rw [entry_keep] at he
  split at he
  · exact he
  · cases he

/-- An entry below a location goes through it. -/
theorem isDir_of_below {T : Tree} {loc l : Loc} (h : loc <:+ l) (hne : l ≠ loc) (hsome : (T.entry l).isSome) :
    T.isDir loc := by
  obtain ⟨names, rfl⟩ := h
  induction names with
  | nil => exact absurd rfl hne
  | cons name names ih =>
    have hdir : T.isDir (names ++ loc) := T.closed name (names ++ loc) hsome
    cases names with
    | nil => exact hdir
    | cons name' names =>
      refine ih (fun heq => ?_) (isDir_isSome hdir)
      have hlen := congrArg List.length heq
      rw [List.length_append, List.length_cons] at hlen
      omega

theorem names_of_not_isDir {T : Tree} {loc : Loc} (h : ¬ T.isDir loc) : T.names loc = [] := by
  rw [List.eq_nil_iff_forall_not_mem]
  intro name hname
  exact h (T.closed name loc (mem_names.mp hname))

end Tree

/-! ## Paths -/

/-- What the process may do at a location; `make` is about the entry to come. -/
structure Rights where
  search : Loc → Bool
  read : Loc → Bool
  make : Loc → Bool
  remove : Loc → Bool

/-- `links` is how many symbolic links one resolution may pass. -/
structure Process where
  cwd : Loc
  umask : BitVec 12
  links : Nat
  may : Rights

def pieces (path : String) : List String := (path.toList.splitOn '/').map String.ofList

theorem pieces_append (path rest : String) : pieces (path ++ "/" ++ rest) = pieces path ++ pieces rest := by
  have hlist : (path ++ "/" ++ rest).toList = path.toList ++ '/' :: rest.toList := by
    rw [String.toList_append, String.toList_append, List.append_assoc]
    rfl
  have hsplit : (path.toList ++ '/' :: rest.toList).splitOn '/' =
      path.toList.splitOn '/' ++ rest.toList.splitOn '/' :=
    List.splitOnP_append_cons path.toList rest.toList (beq_self_eq_true '/')
  rw [pieces, hlist, hsplit, List.map_append]
  rfl

theorem pieces_name {name : String} (h : '/' ∉ name.toList) : pieces name = [name] := by
  have hsplit : name.toList.splitOn '/' = [name.toList] :=
    List.splitOnP_eq_singleton fun c hc => beq_false_of_ne (ne_of_mem_of_not_mem hc h)
  rw [pieces, hsplit, List.map_singleton, String.ofList_toList]

/-- Where the pieces of a path are counted from. -/
def start (cur : Loc) (path : String) : Loc := if path.toList.head? = some '/' then [] else cur

/-- One piece leads to a location, or is a link. -/
inductive Move where
  | to (loc : Loc)
  | link (target : String)
  deriving DecidableEq, Repr

section

variable (P : Process)

def move (T : Tree) (cur : Loc) (piece : String) : Option Move :=
  if piece = "" then if T.isDir cur then some (.to cur) else none
  else if T.isDir cur ∧ P.may.search cur then
    if piece = "." then some (.to cur)
    else if piece = ".." then some (.to cur.tail)
    else (T.entry (piece :: cur)).map fun e =>
      match e.kind with
      | .LNK target => .link target
      | _ => .to (piece :: cur)
  else none

/-- Resolves the pieces, following every link, with the number of links still to be passed. -/
def walk (T : Tree) (links : Nat) (cur : Loc) (names : List String) : Option (Nat × Loc) :=
  match names with
  | [] => some (links, cur)
  | piece :: rest =>
    match move P T cur piece with
    | none => none
    | some (.to cur) => walk T links cur rest
    | some (.link target) =>
      match links with
      | 0 => none
      | links + 1 => walk T links (start cur target) (pieces target ++ rest)
termination_by (links, names.length)

theorem walk_append (T : Tree) (links : Nat) (cur : Loc) (front rest : List String) :
    walk P T links cur (front ++ rest) = (walk P T links cur front).bind fun r => walk P T r.1 r.2 rest := by
  fun_induction walk P T links cur front with
  | case1 => rfl
  | case2 links cur piece front hmove => rw [List.cons_append, walk, hmove]; rfl
  | case3 links cur piece front cur' hmove ih => rw [List.cons_append, walk, hmove, ← ih]
  | case4 cur piece front target hmove => rw [List.cons_append, walk, hmove]; rfl
  | case5 cur piece front target hmove links ih =>
    rw [List.cons_append, walk, hmove, ← ih, List.append_assoc]

variable {P} {T T' : Tree} {links links' : Nat} {cur cur' : Loc} {piece : String} {front rest : List String}

theorem move_mono (h : T.Sub T') {m : Move} (hm : move P T cur piece = some m) : move P T' cur piece = some m := by
  unfold move at hm ⊢
  split at hm
  · next hempty =>
    rw [if_pos hempty]
    split at hm
    · next hdir => rwa [if_pos (h.isDir hdir)]
    · cases hm
  · next hempty =>
    rw [if_neg hempty]
    split at hm
    · next hdir =>
      rw [if_pos ⟨h.isDir hdir.1, hdir.2⟩]
      split at hm
      · next hdot => rwa [if_pos hdot]
      · next hdot =>
        rw [if_neg hdot]
        split at hm
        · next hdots => rwa [if_pos hdots]
        · next hdots =>
          rw [if_neg hdots]
          obtain ⟨e, he, hkind⟩ := Option.map_eq_some_iff.mp hm
          rw [h _ e he, Option.map_some, hkind]
    · cases hm

/-- What a path names in a tree it names in every larger one. -/
theorem walk_mono (h : T.Sub T') {r : Nat × Loc} (hw : walk P T links cur front = some r) :
    walk P T' links cur front = some r := by
  fun_induction walk P T links cur front with
  | case1 => rwa [walk]
  | case2 => cases hw
  | case3 links cur piece front cur' hmove ih =>
    rw [walk, move_mono h hmove]
    exact ih hw
  | case4 => cases hw
  | case5 cur piece front target hmove links ih =>
    rw [walk, move_mono h hmove]
    exact ih hw

end

/-! ## The system calls -/

section

variable (P : Process) (T : Tree)

/-- The location a path names, the last link followed too. -/
def follow (path : String) : Option Loc :=
  if path = "" then none else (walk P T P.links (start P.cwd path) (pieces path)).map Prod.snd

/-- The directory and the name that a path ends in, of the pieces in reverse order. -/
def parent (path : String) : List String → Option (Loc × String)
  | [] => none
  | last :: front =>
    if Special last then none
    else
      (walk P T P.links (start P.cwd path) front.reverse).bind fun r =>
        if T.isDir r.2 ∧ P.may.search r.2 then some (r.2, last) else none

/-- For lstat and unlink, which take a path to its end. -/
def whole (path : String) : Option (Loc × String) := parent P T path (pieces path).reverse

/-- For rmdir and mkdir, which leave slashes at the end aside. -/
def stripped (path : String) : Option (Loc × String) :=
  parent P T path ((pieces path).reverse.dropWhile (· = ""))

/-- The location of what lstat describes. -/
def lstat (path : String) : Option Loc :=
  match (pieces path).getLast? with
  | none => none
  | some last =>
    if Special last then follow P T path
    else
      match whole P T path with
      | some (dir, name) => if (T.entry (name :: dir)).isSome then some (name :: dir) else none
      | none => none

/-- `access(path, F_OK) == 0`. -/
def access (path : String) : Bool := (follow P T path).isSome

/-- The names that readdir then gives. -/
def opendir (path : String) : Option (List String) :=
  match follow P T path with
  | some loc => if T.isDir loc ∧ P.may.read loc then some ("." :: ".." :: T.names loc) else none
  | none => none

/-- Whether it went well, and the tree after it. -/
def unlink (path : String) : Bool × Tree :=
  match whole P T path with
  | some (dir, name) =>
    if h : (T.entry (name :: dir)).isSome ∧ ¬ T.isDir (name :: dir) ∧ P.may.remove (name :: dir) then
      (true, T.erase (name :: dir) (T.names_of_not_isDir h.2.1))
    else (false, T)
  | none => (false, T)

def rmdir (path : String) : Bool × Tree :=
  match stripped P T path with
  | some (dir, name) =>
    if h : T.isDir (name :: dir) ∧ T.names (name :: dir) = [] ∧ P.may.remove (name :: dir) then
      (true, T.erase (name :: dir) h.2.1)
    else (false, T)
  | none => (false, T)

def mkdir (path : String) (mode : BitVec 12) : Bool × Tree :=
  match stripped P T path with
  | some (dir, name) =>
    if h : T.entry (name :: dir) = none ∧ T.isDir dir ∧ Proper name ∧ P.may.make (name :: dir) then
      (true, T.add name dir ⟨.DIR, mode &&& ~~~P.umask⟩ h.1 h.2.1 h.2.2.1)
    else (false, T)
  | none => (false, T)

end

/-! ## What a path names -/

section

variable {P : Process} {T T' : Tree} {path name : String} {loc dir : Loc}

theorem follow_iff : follow P T path = some loc ↔
    path ≠ "" ∧ ∃ links, walk P T P.links (start P.cwd path) (pieces path) = some (links, loc) := by
  unfold follow
  split
  · next h => exact ⟨nofun, fun hloc => absurd h hloc.1⟩
  · next h => simp [h]

theorem follow_mono (h : T.Sub T') (hloc : follow P T path = some loc) : follow P T' path = some loc := by
  obtain ⟨hne, links, hwalk⟩ := follow_iff.mp hloc
  exact follow_iff.mpr ⟨hne, links, walk_mono h hwalk⟩

theorem parent_iff {last : String} {front : List String} : parent P T path (last :: front) = some (dir, name) ↔
    ¬ Special last ∧ last = name ∧
      (∃ links, walk P T P.links (start P.cwd path) front.reverse = some (links, dir)) ∧
      T.isDir dir ∧ P.may.search dir = true := by
  rw [parent]
  by_cases hlast : Special last
  · rw [if_pos hlast]
    exact ⟨nofun, fun h => absurd hlast h.1⟩
  · rw [if_neg hlast, Option.bind_eq_some_iff]
    constructor
    · rintro ⟨⟨links, dir'⟩, hwalk, h⟩
      split at h
      · next hdir =>
        cases h
        exact ⟨hlast, rfl, ⟨links, hwalk⟩, hdir⟩
      · cases h
    · rintro ⟨-, rfl, ⟨links, hwalk⟩, hdir⟩
      exact ⟨(links, dir), hwalk, if_pos hdir⟩

theorem parent_mono (h : T.Sub T') {names : List String} {r : Loc × String} (hr : parent P T path names = some r) :
    parent P T' path names = some r := by
  cases names with
  | nil => cases hr
  | cons last front =>
    obtain ⟨hlast, hname, ⟨links, hwalk⟩, hdir, hsearch⟩ := parent_iff.mp hr
    exact parent_iff.mpr ⟨hlast, hname, ⟨links, walk_mono h hwalk⟩, h.isDir hdir, hsearch⟩

theorem isDir_tail (h : T.isDir loc) : T.isDir loc.tail := by
  cases loc with
  | nil => exact h
  | cons name dir => exact T.closed name dir (Tree.isDir_isSome h)

/-- What one piece does, by its kind. -/
theorem move_cases {cur : Loc} {piece : String} {m : Move} (h : move P T cur piece = some m) :
    (Special piece ∧ ∃ loc, m = .to loc ∧ T.isDir loc) ∨
    ¬ Special piece ∧ T.isDir cur ∧ P.may.search cur = true ∧ ∃ e ∈ T.entry (piece :: cur),
      (∃ target, e.kind = .LNK target ∧ m = .link target) ∨
        (∀ target, e.kind ≠ .LNK target) ∧ m = .to (piece :: cur) := by
  unfold move at h
  split at h
  · next hempty =>
    split at h
    · next hdir =>
      cases h
      exact .inl ⟨.inl hempty, cur, rfl, hdir⟩
    · cases h
  · next hempty =>
    split at h
    · next hdir =>
      split at h
      · next hdot =>
        cases h
        exact .inl ⟨.inr (.inl hdot), cur, rfl, hdir.1⟩
      · next hdot =>
        split at h
        · next hdots =>
          cases h
          exact .inl ⟨.inr (.inr hdots), cur.tail, rfl, isDir_tail hdir.1⟩
        · next hdots =>
          obtain ⟨e, he, hm⟩ := Option.map_eq_some_iff.mp h
          refine .inr ⟨?_, hdir.1, hdir.2, e, he, ?_⟩
          · rintro (h | h | h)
            · exact hempty h
            · exact hdot h
            · exact hdots h
          · split at hm
            · next target hkind => exact .inl ⟨target, hkind, hm.symm⟩
            · next hkind => exact .inr ⟨hkind, hm.symm⟩
    · cases h

theorem move_special {cur : Loc} {piece : String} (hp : Special piece) {m : Move} (h : move P T cur piece = some m) :
    ∃ loc, m = .to loc ∧ T.isDir loc := by
  rcases move_cases h with ⟨-, hm⟩ | ⟨hs, -⟩
  · exact hm
  · exact absurd hp hs

theorem move_isSome {cur : Loc} {piece : String} (h : move P T cur piece = some (.to loc)) : (T.entry loc).isSome := by
  rcases move_cases h with ⟨-, loc', hm, hdir⟩ | ⟨-, -, -, e, he, ⟨_, -, hm⟩ | ⟨-, hm⟩⟩
  · cases hm
    exact Tree.isDir_isSome hdir
  · cases hm
  · cases hm
    exact Option.isSome_of_mem he

/-- To an entry that is no link, by its name. -/
theorem move_name {cur : Loc} {e : Entry} (hname : ¬ Special name) (hdir : T.isDir cur)
    (hsearch : P.may.search cur = true) (he : e ∈ T.entry (name :: cur)) (hlink : ∀ target, e.kind ≠ .LNK target) :
    move P T cur name = some (.to (name :: cur)) := by
  obtain ⟨h1, h2, h3⟩ : name ≠ "" ∧ name ≠ "." ∧ name ≠ ".." := by simpa [Special] using hname
  rw [move, if_neg h1, if_pos ⟨hdir, hsearch⟩, if_neg h2, if_neg h3, he, Option.map_some]
  cases hkind : e.kind with
  | LNK target => exact absurd hkind (hlink target)
  | _ => rfl

theorem move_empty {cur : Loc} (hdir : T.isDir cur) : move P T cur "" = some (.to cur) := by
  rw [move, if_pos rfl, if_pos hdir]

@[simp] theorem walk_nil (links : Nat) (cur : Loc) : walk P T links cur [] = some (links, cur) := by
  rw [walk]

/-- The first piece of a walk that comes to its end. -/
theorem walk_cons {links : Nat} {cur : Loc} {piece : String} {rest : List String} {r : Nat × Loc}
    (h : walk P T links cur (piece :: rest) = some r) :
    (∃ loc, move P T cur piece = some (.to loc) ∧ walk P T links loc rest = some r) ∨
    ∃ target, move P T cur piece = some (.link target) := by
  rw [walk] at h
  cases hmove : move P T cur piece with
  | none =>
    rw [hmove] at h
    cases h
  | some m =>
    rw [hmove] at h
    cases m with
    | «to» loc => exact .inl ⟨loc, rfl, h⟩
    | link target => exact .inr ⟨target, rfl⟩

theorem walk_one {links : Nat} {cur : Loc} {piece : String} (h : move P T cur piece = some (.to loc)) :
    walk P T links cur [piece] = some (links, loc) := by
  rw [walk, h]
  exact walk_nil links loc

/-- Slashes at the end. -/
theorem walk_empties {links : Nat} {cur : Loc} {names : List String} (hdir : T.isDir cur)
    (h : ∀ name ∈ names, name = "") : walk P T links cur names = some (links, cur) := by
  induction names with
  | nil => exact walk_nil links cur
  | cons first names ih =>
    rw [h first (.head _), walk, move_empty hdir]
    exact ih fun name hname => h name (.tail _ hname)

theorem walk_isSome {links links' : Nat} {cur : Loc} {names : List String} (hne : names ≠ [])
    (h : walk P T links cur names = some (links', loc)) : (T.entry loc).isSome := by
  fun_induction walk P T links cur names with
  | case1 => exact absurd rfl hne
  | case2 => cases h
  | case3 links cur piece rest cur' hmove ih =>
    cases rest with
    | nil =>
      cases (walk_nil links cur').symm.trans h
      exact move_isSome hmove
    | cons => exact ih (List.cons_ne_nil _ _) h
  | case4 => cases h
  | case5 cur piece rest target hmove links ih =>
    exact ih (List.append_ne_nil_of_left_ne_nil (by simp [pieces]) _) h

theorem pieces_ne_nil (path : String) : pieces path ≠ [] := by
  simp [pieces]

theorem whole_iff : whole P T path = some (dir, name) ↔
    ∃ front, pieces path = front ++ [name] ∧ ¬ Special name ∧
      (∃ links, walk P T P.links (start P.cwd path) front = some (links, dir)) ∧
      T.isDir dir ∧ P.may.search dir = true := by
  rcases List.eq_nil_or_concat (pieces path) with hnil | ⟨front, last, hpieces⟩
  · exact absurd hnil (pieces_ne_nil path)
  · rw [List.concat_eq_append] at hpieces
    have hreverse : (pieces path).reverse = last :: front.reverse := by rw [hpieces, List.reverse_concat]
    rw [whole, hreverse, parent_iff, List.reverse_reverse, hpieces]
    constructor
    · rintro ⟨hlast, rfl, h⟩
      exact ⟨front, rfl, hlast, h⟩
    · rintro ⟨front', heq, hlast, h⟩
      obtain ⟨rfl, rfl⟩ := List.append_singleton_inj.mp heq
      exact ⟨hlast, rfl, h⟩

theorem lstat_special {front : List String} {last : String} (h : pieces path = front ++ [last]) (hlast : Special last) :
    lstat P T path = follow P T path := by
  rw [lstat, h, List.getLast?_concat]
  exact if_pos hlast

theorem lstat_whole (h : whole P T path = some (dir, name)) :
    lstat P T path = if (T.entry (name :: dir)).isSome then some (name :: dir) else none := by
  obtain ⟨front, hpieces, hname, -⟩ := whole_iff.mp h
  rw [lstat, hpieces, List.getLast?_concat, h]
  exact if_neg hname

/-- What lstat finds, it finds as `stat` does or by its name in a directory. -/
theorem lstat_cases (h : lstat P T path = some loc) :
    (∃ front last, pieces path = front ++ [last] ∧ Special last ∧ follow P T path = some loc) ∨
    ∃ dir name, whole P T path = some (dir, name) ∧ loc = name :: dir ∧ (T.entry loc).isSome := by
  rcases List.eq_nil_or_concat (pieces path) with hnil | ⟨front, last, hpieces⟩
  · exact absurd hnil (pieces_ne_nil path)
  · rw [List.concat_eq_append] at hpieces
    by_cases hlast : Special last
    · rw [lstat_special hpieces hlast] at h
      exact .inl ⟨front, last, hpieces, hlast, h⟩
    · rw [lstat, hpieces, List.getLast?_concat] at h
      dsimp only at h
      rw [if_neg hlast] at h
      cases hwhole : whole P T path with
      | none =>
        rw [hwhole] at h
        cases h
      | some r =>
        obtain ⟨dir, name⟩ := r
        rw [hwhole] at h
        dsimp only at h
        split at h
        · next hsome =>
          cases h
          exact .inr ⟨dir, name, rfl, rfl, hsome⟩
        · cases h

theorem lstat_isSome (h : lstat P T path = some loc) : (T.entry loc).isSome := by
  rcases lstat_cases h with ⟨-, -, -, -, hfollow⟩ | ⟨-, -, -, -, hsome⟩
  · obtain ⟨-, links, hwalk⟩ := follow_iff.mp hfollow
    exact walk_isSome (pieces_ne_nil path) hwalk
  · exact hsome

theorem lstat_mono (h : T.Sub T') (hloc : lstat P T path = some loc) : lstat P T' path = some loc := by
  have hsome := lstat_isSome hloc
  obtain ⟨e, he⟩ := Option.isSome_iff_exists.mp hsome
  rcases lstat_cases hloc with ⟨front, last, hpieces, hlast, hfollow⟩ | ⟨dir, name, hwhole, rfl, -⟩
  · rw [lstat_special hpieces hlast]
    exact follow_mono h hfollow
  · rw [lstat_whole (parent_mono h hwhole), if_pos (Option.isSome_of_mem (h _ e he))]

theorem path_ne_of_whole (h : whole P T path = some (dir, name)) : path ≠ "" := by
  rintro rfl
  obtain ⟨front, hpieces, hname, -⟩ := whole_iff.mp h
  have hempty : pieces "" = [] ++ [""] := pieces_name (by decide)
  rw [hempty] at hpieces
  obtain ⟨-, rfl⟩ := List.append_singleton_inj.mp hpieces
  exact hname (.inl rfl)

/-- What lstat finds is what the path names, unless it is a link. -/
theorem follow_lstat {e : Entry} (h : lstat P T path = some loc) (he : e ∈ T.entry loc)
    (hlink : ∀ target, e.kind ≠ .LNK target) : follow P T path = some loc := by
  rcases lstat_cases h with ⟨-, -, -, -, hfollow⟩ | ⟨dir, name, hwhole, rfl, -⟩
  · exact hfollow
  · obtain ⟨front, hpieces, hname, ⟨links, hwalk⟩, hdir', hsearch⟩ := whole_iff.mp hwhole
    refine follow_iff.mpr ⟨path_ne_of_whole hwhole, links, ?_⟩
    rw [hpieces, walk_append, hwalk]
    exact walk_one (move_name hname hdir' hsearch he hlink)

/-- What is no directory has a name in one. -/
theorem whole_lstat (h : lstat P T path = some loc) (hdir : ¬ T.isDir loc) :
    ∃ dir name, loc = name :: dir ∧ whole P T path = some (dir, name) := by
  rcases lstat_cases h with ⟨front, last, hpieces, hlast, hfollow⟩ | ⟨dir, name, hwhole, rfl, -⟩
  · obtain ⟨-, links, hwalk⟩ := follow_iff.mp hfollow
    rw [hpieces, walk_append] at hwalk
    obtain ⟨⟨links', cur⟩, -, hlast'⟩ := Option.bind_eq_some_iff.mp hwalk
    rcases walk_cons hlast' with ⟨loc', hmove, hend⟩ | ⟨target, hmove⟩
    · obtain ⟨_, hto, hdir'⟩ := move_special hlast hmove
      cases hto
      cases (walk_nil links' loc').symm.trans hend
      exact absurd hdir' hdir
    · obtain ⟨_, hto, -⟩ := move_special hlast hmove
      cases hto
  · exact ⟨dir, name, rfl, hwhole⟩

/-- What rmdir and mkdir read of a path: a name, and slashes after it. -/
theorem stripped_cases (h : stripped P T path = some (dir, name)) :
    ∃ front slashes, pieces path = front ++ [name] ++ slashes ∧ (∀ piece ∈ slashes, piece = "") ∧ ¬ Special name ∧
      (∃ links, walk P T P.links (start P.cwd path) front = some (links, dir)) ∧
      T.isDir dir ∧ P.may.search dir = true := by
  have hsplit := List.takeWhile_append_dropWhile (p := fun piece => decide (piece = "")) (l := (pieces path).reverse)
  rw [stripped] at h
  cases hdrop : (pieces path).reverse.dropWhile (fun piece => decide (piece = "")) with
  | nil =>
    rw [hdrop] at h
    cases h
  | cons last front =>
    rw [hdrop] at h hsplit
    obtain ⟨hlast, rfl, hwalk, hdir⟩ := parent_iff.mp h
    refine ⟨front.reverse, ((pieces path).reverse.takeWhile fun piece => decide (piece = "")).reverse, ?_, ?_, hlast,
      hwalk, hdir⟩
    · have hpieces := congrArg List.reverse hsplit
      rwa [List.reverse_reverse, List.reverse_append, List.reverse_cons, eq_comm] at hpieces
    · intro piece hpiece
      simpa using List.mem_takeWhile_imp (List.mem_reverse.mp hpiece)

theorem path_ne_of_stripped (h : stripped P T path = some (dir, name)) : path ≠ "" := by
  rintro rfl
  obtain ⟨front, slashes, hpieces, -, hname, -⟩ := stripped_cases h
  have hempty : pieces "" = [""] := pieces_name (by decide)
  have hin : name ∈ pieces "" := by
    rw [hpieces]
    simp
  rw [hempty, List.mem_singleton] at hin
  exact hname (.inl hin)

/-- The directory that rmdir takes away is the one that lstat finds. -/
theorem lstat_stripped (h : stripped P T path = some (dir, name)) (hdir : T.isDir (name :: dir)) :
    lstat P T path = some (name :: dir) := by
  obtain ⟨front, slashes, hpieces, hslashes, hname, ⟨links, hwalk⟩, hin, hsearch⟩ := stripped_cases h
  rcases List.eq_nil_or_concat slashes with rfl | ⟨init, last, rfl⟩
  · rw [List.append_nil] at hpieces
    have hwhole : whole P T path = some (dir, name) :=
      whole_iff.mpr ⟨front, hpieces, hname, ⟨links, hwalk⟩, hin, hsearch⟩
    rw [lstat_whole hwhole, if_pos (Tree.isDir_isSome hdir)]
  · have hlast : last = "" := hslashes last (by simp)
    have hend : pieces path = (front ++ [name] ++ init) ++ [last] := by
      rw [hpieces, List.concat_eq_append, List.append_assoc _ init]
    rw [lstat_special hend (.inl hlast)]
    refine follow_iff.mpr ⟨path_ne_of_stripped h, links, ?_⟩
    obtain ⟨e, he, hkind⟩ := hdir
    have hmove : move P T dir name = some (.to (name :: dir)) :=
      move_name hname hin hsearch he fun target h => nomatch hkind.symm.trans h
    rw [hpieces, List.append_assoc, walk_append, hwalk]
    refine (walk_append P T links dir [name] _).trans ?_
    rw [walk_one hmove]
    exact walk_empties ⟨e, he, hkind⟩ hslashes

/-! ## One name more -/

theorem start_sub (cur : Loc) (hne : path ≠ "") (rest : String) : start cur (path ++ "/" ++ rest) = start cur path := by
  obtain ⟨c, cs, hpath⟩ := List.exists_cons_of_ne_nil (mt String.toList_eq_nil_iff.mp hne)
  rw [start, start, String.toList_append, String.toList_append, hpath]
  rfl

theorem whole_sub (h : follow P T path = some loc) (hdir : T.isDir loc) (hsearch : P.may.search loc = true)
    (hname : Proper name) : whole P T (path ++ "/" ++ name) = some (loc, name) := by
  obtain ⟨hne, links, hwalk⟩ := follow_iff.mp h
  refine whole_iff.mpr ⟨pieces path, ?_, hname.1, ⟨links, ?_⟩, hdir, hsearch⟩
  · rw [pieces_append, pieces_name hname.2]
  · rwa [start_sub _ hne]

theorem lstat_sub (hne : path ≠ "") (hname : Proper name) (h : lstat P T (path ++ "/" ++ name) = some loc) :
    ∃ dir, loc = name :: dir ∧ follow P T path = some dir := by
  have hpieces : pieces (path ++ "/" ++ name) = pieces path ++ [name] := by
    rw [pieces_append, pieces_name hname.2]
  rcases lstat_cases h with ⟨front, last, heq, hlast, -⟩ | ⟨dir, last, hwhole, rfl, -⟩
  · obtain ⟨-, rfl⟩ := List.append_singleton_inj.mp (hpieces.symm.trans heq)
    exact absurd hlast hname.1
  · obtain ⟨front, heq, -, ⟨links, hwalk⟩, -⟩ := whole_iff.mp hwhole
    obtain ⟨rfl, rfl⟩ := List.append_singleton_inj.mp (hpieces.symm.trans heq)
    rw [start_sub _ hne] at hwalk
    exact ⟨dir, rfl, follow_iff.mpr ⟨hne, links, hwalk⟩⟩

end

/-! ## A process that may do anything, in a directory with nothing in it -/

def anything : Process where
  cwd := []
  umask := 0o022
  links := 40
  may := ⟨fun _ => true, fun _ => true, fun _ => true, fun _ => true⟩

def emptyRoot : Tree where
  entries := [([], ⟨.DIR, 0o755⟩)]
  nodup := by decide
  closed := fun _ _ h => nomatch h
  proper := fun _ _ h => nomatch h

theorem emptyRoot_isDir : emptyRoot.isDir [] := ⟨_, rfl, rfl⟩

theorem emptyRoot_new (name : String) : emptyRoot.entry [name] = none := rfl

/-- One entry in the root. -/
def rootWith (name : String) (hname : Proper name) (e : Entry) : Tree :=
  emptyRoot.add name [] e (emptyRoot_new name) emptyRoot_isDir hname

theorem entry_rootWith {name : String} (hname : Proper name) (e : Entry) :
    (rootWith name hname e).entry [name] = some e := by
  rw [rootWith, Tree.entry_add, if_pos rfl]

/-- An entry of the root, by its name after a slash. -/
theorem lstat_rootWith {name : String} (hname : Proper name) (e : Entry) :
    lstat anything (rootWith name hname e) ("/" ++ name) = some [name] := by
  have hroot : (rootWith name hname e).isDir [] := by
    obtain ⟨root, hentry, hkind⟩ := emptyRoot_isDir
    refine ⟨root, ?_, hkind⟩
    rw [rootWith, Tree.entry_add, if_neg (List.cons_ne_nil _ _).symm]
    exact hentry
  have hpath : "/" ++ name = "" ++ "/" ++ name := rfl
  have hpieces : pieces ("/" ++ name) = [""] ++ [name] := by
    rw [hpath, pieces_append, pieces_name hname.2, pieces_name (by decide)]
  have hstart : start anything.cwd ("/" ++ name) = [] := by
    rw [start]
    split
    · rfl
    · rfl
  have hwalk : walk anything (rootWith name hname e) anything.links (start anything.cwd ("/" ++ name)) [""] =
      some (40, []) := by
    rw [hstart]
    exact walk_empties hroot (by simp)
  have hwhole : whole anything (rootWith name hname e) ("/" ++ name) = some ([], name) :=
    whole_iff.mpr ⟨[""], hpieces, hname.1, ⟨40, hwalk⟩, hroot, rfl⟩
  rw [lstat_whole hwhole, entry_rootWith]
  rfl

end Sylar.FSUtil
