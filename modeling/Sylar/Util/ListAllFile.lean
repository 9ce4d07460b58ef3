/-
  Sylar.Util.ListAllFile — `FSUtil::ListAllFile` (sylar/util.cpp lines 128-157).

  It opens a directory by its path and calls itself on `path + "/" + d_name`, a text that
  the system resolves anew from its start. d_type is that of the entry itself, so a link is
  neither listed nor entered; only the path it is first called with may lead through links.
  A file system that gives DT_UNKNOWN is left out. The recursion is bounded by the height
  of the tree, and nobody changes the tree.

  Proved, for every path and tree (`listAllFile_exact`): it comes to an end, keeps the files
  it was given, and adds each regular file below the directory whose name ends in the
  subfix exactly once, by its path, if all directories on the way may be read and all but
  the last searched. The path leads to the file, if the last may be searched too.
-/

import Sylar.Util.Rm
import Sylar.Config.LoadFromConfDir

namespace Sylar.FSUtil

open ConfDir (hasSubfix)

/-! ## The loop and the calls -/

/-- What readdir gives of a directory, with d_type. -/
def dirents (T : Tree) (loc : Loc) : List (String × Kind) :=
  (".", .DIR) :: ("..", .DIR) ::
    (T.names loc).filterMap fun d_name => (T.entry (d_name :: loc)).map fun e => (d_name, e.kind)

section

variable (P : Process) (T : Tree)

def readdir (path : String) : Option (List (String × Kind)) :=
  match follow P T path with
  | some loc => if T.isDir loc ∧ P.may.read loc then some (dirents T loc) else none
  | none => none

/-- The loop over readdir. -/
def listEach (call : List String → String → Option (List String)) (path subfix : String) :
    List (String × Kind) → List String → Option (List String)
  | [], files => some files
  | (d_name, d_type) :: rest, files =>
    if d_type = .DIR then
      if d_name = "." ∨ d_name = ".." then listEach call path subfix rest files
      else
        match call files (path ++ "/" ++ d_name) with
        | some files => listEach call path subfix rest files
        | none => none
    else if d_type = .REG ∧ hasSubfix subfix d_name then
      listEach call path subfix rest (files ++ [path ++ "/" ++ d_name])
    else listEach call path subfix rest files

/-- `FSUtil::ListAllFile`, to a bounded depth. -/
def listAll (subfix : String) : Nat → List String → String → Option (List String)
  | 0, _, _ => none
  | fuel + 1, files, path =>
    if access P T path = false then some files
    else
      match readdir P T path with
      | none => some files
      | some dir => listEach (listAll subfix fuel) path subfix dir files

def ListAllFile (files : List String) (path subfix : String) : Option (List String) :=
  listAll P T subfix T.height files path

end

/-! ## What is listed -/

/-- The path of what is below a directory, by the names on the way down. -/
def below (path : String) (names : List String) : String := names.foldl (fun path name => path ++ "/" ++ name) path

/-- A regular file of that ending; `above` leads to the directories on the way to it. -/
structure Listed (P : Process) (T : Tree) (subfix : String) (root : Loc) (names : List String) : Prop where
  file : ∃ e ∈ T.entry (names.reverse ++ root), e.kind = .REG
  ending : ∃ last ∈ names.getLast?, hasSubfix subfix last = true
  read : ∀ above, above <+: names → above ≠ names → P.may.read (above.reverse ++ root) = true
  search : ∀ above name, above ++ [name] <+: names → above ++ [name] ≠ names →
    P.may.search (above.reverse ++ root) = true

section

variable {P : Process} {T : Tree} {subfix path name : String} {root loc : Loc} {names : List String}

theorem pieces_below (h : ∀ name ∈ names, Proper name) : pieces (below path names) = pieces path ++ names := by
  induction names generalizing path with
  | nil => exact (List.append_nil _).symm
  | cons name names ih =>
    have hrest : pieces (below (path ++ "/" ++ name) names) = pieces (path ++ "/" ++ name) ++ names :=
      ih fun name hname => h name (.tail _ hname)
    rw [below, List.foldl_cons]
    refine hrest.trans ?_
    rw [pieces_append, pieces_name (h name (.head _)).2, List.append_assoc]
    rfl

/-- A path tells the names. -/
theorem below_inj {names' : List String} (h : ∀ name ∈ names, Proper name) (h' : ∀ name ∈ names', Proper name)
    (heq : below path names = below path names') : names = names' := by
  have hpieces := congrArg pieces heq
  rw [pieces_below h, pieces_below h'] at hpieces
  exact List.append_cancel_left hpieces

theorem reverse_cons_append (name : String) (names : List String) (root : Loc) :
    (name :: names).reverse ++ root = names.reverse ++ name :: root := by
  rw [List.reverse_cons, List.append_assoc]
  rfl

/-- Above an entry there are directories only. -/
theorem isDir_on_way (h : (T.entry ((name :: names).reverse ++ root)).isSome) : T.isDir root := by
  refine Tree.isDir_of_below (List.suffix_append _ root) (fun heq => ?_) h
  have hlen := congrArg List.length heq
  rw [List.length_append, List.length_reverse, List.length_cons] at hlen
  omega

theorem proper_on_way (h : (T.entry (names.reverse ++ root)).isSome) : ∀ name ∈ names, Proper name := by
  induction names generalizing root with
  | nil => nofun
  | cons first names ih =>
    have hrest : (T.entry (names.reverse ++ first :: root)).isSome := by rwa [reverse_cons_append] at h
    intro name hname
    rcases List.mem_cons.mp hname with rfl | hname
    · cases names with
      | nil => exact T.proper name root hrest
      | cons second names =>
        exact T.proper name root (Tree.isDir_isSome (isDir_on_way hrest))
    · exact ih hrest name hname

theorem Listed.proper (h : Listed P T subfix root names) : ∀ name ∈ names, Proper name := by
  obtain ⟨e, he, -⟩ := h.file
  exact proper_on_way (Option.isSome_of_mem he)

theorem listed_nil : ¬Listed P T subfix root [] := by
  intro h
  obtain ⟨last, hlast, -⟩ := h.ending
  cases hlast

theorem Listed.read_root (h : Listed P T subfix root names) : P.may.read root = true := by
  refine h.read [] List.nil_prefix fun hnil => ?_
  exact listed_nil (hnil ▸ h)

/-- A file of the directory itself. -/
theorem listed_one (hread : P.may.read root = true) :
    Listed P T subfix root [name] ↔ (∃ e ∈ T.entry (name :: root), e.kind = .REG) ∧ hasSubfix subfix name = true := by
  constructor
  · intro h
    obtain ⟨last, hlast, hending⟩ := h.ending
    cases hlast
    exact ⟨h.file, hending⟩
  · rintro ⟨hfile, hending⟩
    refine ⟨hfile, ⟨name, rfl, hending⟩, ?_, ?_⟩
    · intro above hpre hne
      rcases List.prefix_cons_iff.mp hpre with rfl | ⟨rest, rfl, hrest⟩
      · exact hread
      · cases List.prefix_nil.mp hrest
        exact absurd rfl hne
    · intro above last hpre hne
      rcases List.prefix_cons_iff.mp hpre with hnil | ⟨rest, heq, hrest⟩
      · simp at hnil
      · cases List.prefix_nil.mp hrest
        exact absurd heq hne

/-- A file further down is listed from the directory in between, which must be found. -/
theorem listed_cons (hread : P.may.read root = true) (hne : names ≠ []) :
    Listed P T subfix root (name :: names) ↔ P.may.search root = true ∧ Listed P T subfix (name :: root) names := by
  constructor
  · intro h
    obtain ⟨second, rest, rfl⟩ := List.exists_cons_of_ne_nil hne
    refine ⟨h.search [] name ⟨second :: rest, rfl⟩ nofun, ⟨?_, ?_, ?_, ?_⟩⟩
    · rw [← reverse_cons_append]
      exact h.file
    · rw [← List.getLast?_cons_cons]
      exact h.ending
    · intro above hpre hne'
      rw [← reverse_cons_append]
      exact h.read (name :: above) (List.prefix_cons_inj name |>.mpr hpre) fun heq => hne' (List.cons.inj heq).2
    · intro above last hpre hne'
      rw [← reverse_cons_append]
      exact h.search (name :: above) last (List.prefix_cons_inj name |>.mpr hpre) fun heq =>
        hne' (List.cons.inj heq).2
  · rintro ⟨hsearch, h⟩
    obtain ⟨second, rest, rfl⟩ := List.exists_cons_of_ne_nil hne
    refine ⟨?_, ?_, ?_, ?_⟩
    · rw [reverse_cons_append]
      exact h.file
    · rw [List.getLast?_cons_cons]
      exact h.ending
    · intro above hpre hne'
      rcases List.prefix_cons_iff.mp hpre with rfl | ⟨tail, rfl, htail⟩
      · exact hread
      · rw [reverse_cons_append]
        exact h.read tail htail fun heq => hne' (heq ▸ rfl)
    · intro above last hpre hne'
      cases above with
      | nil => exact hsearch
      | cons first above =>
        obtain ⟨rfl, htail⟩ := List.cons_prefix_cons.mp hpre
        rw [reverse_cons_append]
        exact h.search above last htail fun heq => hne' (heq ▸ rfl)

/-! ## One name more -/

/-- A name in a directory is found by the path with it exactly if the directory is searched. -/
theorem follow_sub (h : follow P T path = some root) (hname : Proper name) {e : Entry} (he : e ∈ T.entry (name :: root))
    (hlink : ∀ target, e.kind ≠ .LNK target) :
    follow P T (path ++ "/" ++ name) = if P.may.search root then some (name :: root) else none := by
  have hdir : T.isDir root := T.closed name root (Option.isSome_of_mem he)
  by_cases hsearch : P.may.search root = true
  · have hwhole := whole_sub h hdir hsearch hname
    have hstat : lstat P T (path ++ "/" ++ name) = some (name :: root) := by
      rw [lstat_whole hwhole, if_pos (Option.isSome_of_mem he)]
    rw [if_pos hsearch]
    exact follow_lstat hstat he hlink
  · rw [if_neg hsearch]
    by_contra hsome
    obtain ⟨loc, hloc⟩ := Option.ne_none_iff_exists'.mp hsome
    obtain ⟨hne, links, hwalk⟩ := follow_iff.mp h
    obtain ⟨-, links', hwalk'⟩ := follow_iff.mp hloc
    rw [start_sub _ hne, pieces_append, pieces_name hname.2, walk_append, hwalk] at hwalk'
    have hsearch' : ∀ m, move P T root name = some m → P.may.search root = true := by
      intro m hm
      rcases move_cases hm with ⟨hspecial, -⟩ | ⟨-, -, hs, -⟩
      · exact absurd hspecial hname.1
      · exact hs
    rcases walk_cons hwalk' with ⟨loc', hmove, -⟩ | ⟨target, hmove⟩
    · exact hsearch (hsearch' _ hmove)
    · exact hsearch (hsearch' _ hmove)

/-! ## What one name gives -/

/-- `new` are the files below what the path leads to, each once. -/
def Adds (P : Process) (T : Tree) (subfix path : String) (new : List String) : Prop :=
  new.Nodup ∧ ∀ text, text ∈ new ↔
    ∃ root names, follow P T path = some root ∧ Listed P T subfix root names ∧ text = below path names

/-- `text` is the path of a file at or below the name. -/
def Gives (P : Process) (T : Tree) (subfix path : String) (root : Loc) (name text : String) : Prop :=
  ∃ names, Listed P T subfix root (name :: names) ∧ text = below path (name :: names)

variable {text : String}

theorem gives_dot (h : name = "." ∨ name = "..") : ¬Gives P T subfix path root name text := by
  rintro ⟨names, hlisted, -⟩
  exact (hlisted.proper name (.head _)).1 (.inr h)

theorem Gives.name_eq {name' : String} (h : Gives P T subfix path root name text)
    (h' : Gives P T subfix path root name' text) : name = name' := by
  obtain ⟨names, hlisted, rfl⟩ := h
  obtain ⟨names', hlisted', heq⟩ := h'
  exact (List.cons.inj (below_inj hlisted.proper hlisted'.proper heq)).1

theorem gives_dir (h : follow P T path = some root) (hread : P.may.read root = true) {e : Entry}
    (he : e ∈ T.entry (name :: root)) (hkind : e.kind = .DIR) {new : List String}
    (hnew : Adds P T subfix (path ++ "/" ++ name) new) : text ∈ new ↔ Gives P T subfix path root name text := by
  have hname : Proper name := T.proper name root (Option.isSome_of_mem he)
  have hfollow := follow_sub h hname he fun target hlink => nomatch hkind.symm.trans hlink
  rw [hnew.2 text, hfollow]
  constructor
  · rintro ⟨loc, names, hloc, hlisted, rfl⟩
    split at hloc
    · next hsearch =>
      cases hloc
      have hne : names ≠ [] := fun hnil => listed_nil (hnil ▸ hlisted)
      exact ⟨names, (listed_cons hread hne).mpr ⟨hsearch, hlisted⟩, rfl⟩
    · cases hloc
  · rintro ⟨names, hlisted, rfl⟩
    have hne : names ≠ [] := by
      rintro rfl
      obtain ⟨e', he', hreg⟩ := ((listed_one hread).mp hlisted).1
      cases Option.mem_unique he he'
      cases hkind.symm.trans hreg
    obtain ⟨hsearch, hlisted⟩ := (listed_cons hread hne).mp hlisted
    exact ⟨name :: root, names, if_pos hsearch, hlisted, rfl⟩

theorem gives_other (hread : P.may.read root = true) {e : Entry} (he : e ∈ T.entry (name :: root))
    (hkind : e.kind ≠ .DIR) : Gives P T subfix path root name text ↔
      (e.kind = .REG ∧ hasSubfix subfix name = true) ∧ text = path ++ "/" ++ name := by
  constructor
  · rintro ⟨names, hlisted, rfl⟩
    cases names with
    | nil =>
      obtain ⟨⟨e', he', hreg⟩, hending⟩ := (listed_one hread).mp hlisted
      cases Option.mem_unique he he'
      exact ⟨⟨hreg, hending⟩, rfl⟩
    | cons second names =>
      obtain ⟨-, hlisted⟩ := (listed_cons hread (List.cons_ne_nil _ _)).mp hlisted
      obtain ⟨file, hfile, -⟩ := hlisted.file
      obtain ⟨e', he', hdir⟩ := isDir_on_way (Option.isSome_of_mem hfile)
      cases Option.mem_unique he he'
      exact absurd hdir hkind
  · rintro ⟨⟨hreg, hending⟩, rfl⟩
    exact ⟨[], (listed_one hread).mpr ⟨⟨e, he, hreg⟩, hending⟩, rfl⟩

/-! ## What the loop gives -/

/-- The names of a directory, the dots aside, are those of its entries. -/
theorem mem_dirents {d_type : Kind} (h : (name, d_type) ∈ dirents T root) :
    (name = "." ∨ name = "..") ∧ d_type = .DIR ∨ ∃ e ∈ T.entry (name :: root), e.kind = d_type := by
  rcases List.mem_cons.mp h with heq | h
  · cases heq
    exact .inl ⟨.inl rfl, rfl⟩
  · rcases List.mem_cons.mp h with heq | h
    · cases heq
      exact .inl ⟨.inr rfl, rfl⟩
    · obtain ⟨d_name, -, hd⟩ := List.mem_filterMap.mp h
      obtain ⟨e, he, heq⟩ := Option.map_eq_some_iff.mp hd
      cases heq
      exact .inr ⟨e, he, rfl⟩

theorem dirents_of_entry {e : Entry} (he : e ∈ T.entry (name :: root)) : (name, e.kind) ∈ dirents T root := by
  refine .tail _ (.tail _ (List.mem_filterMap.mpr ⟨name, Tree.mem_names.mpr (Option.isSome_of_mem he), ?_⟩))
  rw [he]
  rfl

theorem Tree.names_nodup (T : Tree) (loc : Loc) : (T.names loc).Nodup := by
  have hcons : ∀ l : Loc, ∀ name ∈ (if l.tail = loc then l.head? else none), l = name :: loc := by
    intro l name h
    cases l with
    | nil => simp at h
    | cons first dir =>
      by_cases hdir : dir = loc
      · rw [if_pos (show (first :: dir).tail = loc from hdir)] at h
        rw [hdir, Option.some.inj (show some first = some name from h)]
      · rw [if_neg (show (first :: dir).tail ≠ loc from hdir)] at h
        cases h
  have hnames : T.names loc =
      (T.entries.map Prod.fst).filterMap fun l => if l.tail = loc then l.head? else none := by
    rw [Tree.names, List.filterMap_map]
    refine List.filterMap_congr fun en _ => ?_
    rcases en with ⟨_ | ⟨first, dir⟩, e⟩
    · simp
    · rfl
  rw [hnames]
  refine T.nodup.filterMap fun l l' name hl hl' => ?_
  rw [hcons l name hl, hcons l' name hl']

theorem dirents_nodup (T : Tree) (root : Loc) : ((dirents T root).map Prod.fst).Nodup := by
  have hsub : ∀ names : List String,
      ((names.filterMap fun d_name => (T.entry (d_name :: root)).map fun e => (d_name, e.kind)).map Prod.fst).Sublist
        names := by
    intro names
    induction names with
    | nil => exact .slnil
    | cons name names ih =>
      rw [List.filterMap_cons]
      cases T.entry (name :: root) with
      | none => exact ih.cons _
      | some e => exact ih.cons_cons _
  have hproper : ∀ name, name ∈ (dirents T root).tail.tail.map Prod.fst → Proper name := fun name hname =>
    Tree.proper_of_mem ((hsub _).subset hname)
  have hrest := (T.names_nodup root).sublist (hsub _)
  refine List.nodup_cons.mpr ⟨fun hdot => ?_, List.nodup_cons.mpr ⟨fun hdots => ?_, hrest⟩⟩
  · rcases List.mem_cons.mp hdot with heq | hdot
    · exact absurd heq (by decide)
    · exact (hproper _ hdot).1 (by decide)
  · exact (hproper _ hdots).1 (by decide)

/-- Each turn adds what its name gives. -/
theorem listEach_exact {call : List String → String → Option (List String)} (h : follow P T path = some root)
    (hread : P.may.read root = true)
    (hcall : ∀ files name, T.isDir (name :: root) → ∃ new,
      call files (path ++ "/" ++ name) = some (files ++ new) ∧ Adds P T subfix (path ++ "/" ++ name) new)
    {dir : List (String × Kind)} (hdir : ∀ ent ∈ dir, ent ∈ dirents T root) (hn : (dir.map Prod.fst).Nodup)
    (files : List String) : ∃ new, listEach call path subfix dir files = some (files ++ new) ∧ new.Nodup ∧
      ∀ text, text ∈ new ↔ ∃ ent ∈ dir, Gives P T subfix path root ent.1 text := by
  induction dir generalizing files with
  | nil => exact ⟨[], by rw [listEach, List.append_nil], .nil, by simp⟩
  | cons ent rest ih =>
    obtain ⟨d_name, d_type⟩ := ent
    obtain ⟨hfresh, hn⟩ := List.nodup_cons.mp hn
    have ih := ih (fun ent hent => hdir ent (.tail _ hent)) hn
    -- What this turn adds, and then the others.
    have hturn : ∀ new₁, new₁.Nodup → (∀ text, text ∈ new₁ ↔ Gives P T subfix path root d_name text) →
        listEach call path subfix ((d_name, d_type) :: rest) files = listEach call path subfix rest (files ++ new₁) →
        ∃ new, listEach call path subfix ((d_name, d_type) :: rest) files = some (files ++ new) ∧ new.Nodup ∧
          ∀ text, text ∈ new ↔ ∃ ent ∈ (d_name, d_type) :: rest, Gives P T subfix path root ent.1 text := by
      intro new₁ hn₁ hnew₁ heq
      obtain ⟨new₂, heach, hn₂, hnew₂⟩ := ih (files ++ new₁)
      refine ⟨new₁ ++ new₂, by rw [heq, heach, List.append_assoc], List.nodup_append.mpr ⟨hn₁, hn₂, ?_⟩, ?_⟩
      · rintro text h₁ _ h₂ rfl
        obtain ⟨ent, hent, hgives⟩ := (hnew₂ text).mp h₂
        have hname := ((hnew₁ text).mp h₁).name_eq hgives
        exact hfresh (List.mem_map.mpr ⟨ent, hent, hname.symm⟩)
      · intro text
        simp only [List.mem_append, hnew₁, hnew₂, List.mem_cons, exists_eq_or_imp]
    have hnone : (∀ text, ¬Gives P T subfix path root d_name text) →
        listEach call path subfix ((d_name, d_type) :: rest) files = listEach call path subfix rest files →
        ∃ new, listEach call path subfix ((d_name, d_type) :: rest) files = some (files ++ new) ∧ new.Nodup ∧
          ∀ text, text ∈ new ↔ ∃ ent ∈ (d_name, d_type) :: rest, Gives P T subfix path root ent.1 text := by
      intro hno heq
      exact hturn [] .nil (fun text => ⟨nofun, fun hg => absurd hg (hno text)⟩) (by rw [heq, List.append_nil])
    by_cases htype : d_type = .DIR
    · by_cases hdot : d_name = "." ∨ d_name = ".."
      · exact hnone (fun _ => gives_dot hdot) (by rw [listEach, if_pos htype, if_pos hdot])
      · rcases mem_dirents (hdir _ (.head _)) with ⟨hdot', -⟩ | ⟨e, he, hkind⟩
        · exact absurd hdot' hdot
        · obtain ⟨new₁, hone, hadds⟩ := hcall files d_name ⟨e, he, hkind.trans htype⟩
          refine hturn new₁ hadds.1 (fun text => gives_dir h hread he (hkind.trans htype) hadds) ?_
          rw [listEach, if_pos htype, if_neg hdot, hone]
    · rcases mem_dirents (hdir _ (.head _)) with ⟨-, hkind⟩ | ⟨e, he, rfl⟩
      · exact absurd hkind htype
      · have hgives : ∀ text, Gives P T subfix path root d_name text ↔
            (e.kind = .REG ∧ hasSubfix subfix d_name = true) ∧ text = path ++ "/" ++ d_name :=
          fun text => gives_other hread he htype
        by_cases hfile : e.kind = .REG ∧ hasSubfix subfix d_name = true
        · refine hturn [path ++ "/" ++ d_name] (List.nodup_singleton _) (fun text => ?_) ?_
          · rw [hgives, List.mem_singleton]
            exact (and_iff_right hfile).symm
          · rw [listEach, if_neg htype, if_pos hfile]
        · exact hnone (fun text hg => hfile ((hgives text).mp hg).1) (by rw [listEach, if_neg htype, if_neg hfile])

/-! ## The recursion -/

theorem entry_on_way (h : (T.entry ((name :: names).reverse ++ root)).isSome) : (T.entry (name :: root)).isSome := by
  rw [reverse_cons_append] at h
  cases names with
  | nil => exact h
  | cons second names => exact Tree.isDir_isSome (isDir_on_way h)

theorem listAll_exact {fuel : Nat} (hfuel : 0 < fuel) (h : ∀ root, follow P T path = some root → Enough T root fuel)
    (files : List String) :
    ∃ new, listAll P T subfix fuel files path = some (files ++ new) ∧ Adds P T subfix path new := by
  induction fuel generalizing path files with
  | zero => cases hfuel
  | succ fuel ih =>
    rw [listAll]
    cases hfollow : follow P T path with
    | none =>
      have haccess : access P T path = false := by rw [access, hfollow]; rfl
      refine ⟨[], by rw [if_pos haccess, List.append_nil], .nil, fun text => ⟨nofun, ?_⟩⟩
      rintro ⟨root, names, hroot, -⟩
      cases hfollow.symm.trans hroot
    | some root =>
      have haccess : ¬access P T path = false := by rw [access, hfollow]; nofun
      rw [if_neg haccess, readdir, hfollow]
      dsimp only
      by_cases hopen : T.isDir root ∧ P.may.read root = true
      · rw [if_pos hopen]
        have hcall : ∀ files name, T.isDir (name :: root) → ∃ new,
            listAll P T subfix fuel files (path ++ "/" ++ name) = some (files ++ new) ∧
              Adds P T subfix (path ++ "/" ++ name) new := by
          intro files name hsub
          obtain ⟨e, he, hkind⟩ := hsub
          have hlen := h root hfollow _ (List.suffix_cons name root) (Option.isSome_of_mem he)
          rw [List.length_cons] at hlen
          refine ih (by omega) (fun loc hloc => ?_) files
          have hname : Proper name := T.proper name root (Option.isSome_of_mem he)
          rw [follow_sub hfollow hname he fun target hlink => nomatch hkind.symm.trans hlink] at hloc
          split at hloc
          · cases hloc
            intro l hbelow hsome
            have hlen := h root hfollow l ((List.suffix_cons name root).trans hbelow) hsome
            rw [List.length_cons]
            omega
          · cases hloc
        obtain ⟨new, heach, hn, hnew⟩ := listEach_exact hfollow hopen.2 hcall (fun _ => id) (dirents_nodup T root) files
        refine ⟨new, heach, hn, fun text => ?_⟩
        rw [hnew]
        constructor
        · rintro ⟨ent, -, names, hlisted, rfl⟩
          exact ⟨root, ent.1 :: names, hfollow, hlisted, rfl⟩
        · rintro ⟨root', names, hroot, hlisted, rfl⟩
          cases hfollow.symm.trans hroot
          cases names with
          | nil => exact absurd hlisted listed_nil
          | cons name names =>
            obtain ⟨file, hfile, -⟩ := hlisted.file
            obtain ⟨e, he⟩ := Option.isSome_iff_exists.mp (entry_on_way (Option.isSome_of_mem hfile))
            exact ⟨(name, e.kind), dirents_of_entry he, names, hlisted, rfl⟩
      · rw [if_neg hopen]
        refine ⟨[], by rw [List.append_nil], .nil, fun text => ⟨nofun, ?_⟩⟩
        rintro ⟨root', names, hroot, hlisted, -⟩
        cases hfollow.symm.trans hroot
        cases names with
        | nil => exact absurd hlisted listed_nil
        | cons name names =>
          obtain ⟨file, hfile, -⟩ := hlisted.file
          exact absurd ⟨isDir_on_way (Option.isSome_of_mem hfile), hlisted.read_root⟩ hopen

/-- The path of a listed file leads to it. -/
theorem lstat_listed (h : follow P T path = some root) (hlisted : Listed P T subfix root names)
    (hsearch : P.may.search (names.reverse ++ root).tail = true) :
    lstat P T (below path names) = some (names.reverse ++ root) := by
  induction names generalizing path root with
  | nil => exact absurd hlisted listed_nil
  | cons name names ih =>
    obtain ⟨file, hfile, -⟩ := hlisted.file
    have hname := hlisted.proper name (.head _)
    have hdir := isDir_on_way (Option.isSome_of_mem hfile)
    cases names with
    | nil =>
      have hwhole := whole_sub h hdir hsearch hname
      exact (lstat_whole hwhole).trans (if_pos (Option.isSome_of_mem hfile))
    | cons second names =>
      obtain ⟨hsearch', hrest⟩ := (listed_cons hlisted.read_root (List.cons_ne_nil _ _)).mp hlisted
      rw [reverse_cons_append] at hfile hsearch ⊢
      obtain ⟨e, he, hkind⟩ := isDir_on_way (Option.isSome_of_mem hfile)
      have hfollow := follow_sub h hname he fun target hlink => nomatch hkind.symm.trans hlink
      rw [if_pos hsearch'] at hfollow
      exact ih hfollow hrest hsearch

theorem listAllFile_exact (P : Process) (T : Tree) (files : List String) (path subfix : String) :
    ∃ new, ListAllFile P T files path subfix = some (files ++ new) ∧ new.Nodup ∧
      (∀ text, text ∈ new ↔
        ∃ root names, follow P T path = some root ∧ Listed P T subfix root names ∧ text = below path names) ∧
      ∀ root names, follow P T path = some root → Listed P T subfix root names →
        P.may.search (names.reverse ++ root).tail = true →
        lstat P T (below path names) = some (names.reverse ++ root) := by
  have hheight : 0 < T.height := Nat.succ_pos _
  obtain ⟨new, hlist, hn, hnew⟩ := listAll_exact hheight (fun root _ => enough_height T root) files
  exact ⟨new, hlist, hn, hnew, fun root names => lstat_listed⟩

end

end Sylar.FSUtil
