/-
  Sylar.Config.LoadFromConfDir — which files `Config::LoadFromConfDir` skips
  (sylar/config.cpp lines 55-82, FSUtil::ListAllFile in sylar/util.cpp lines 128-158).

  The directory is a tree that anyone may change in any way between two calls; a file has
  its content and its st_mtime in seconds, and which loads succeed is part of the call.
  `m` is s_file2modifytime, where a path that is not in it reads 0; `loaded` are the
  contents that calls have loaded with success, with their paths.

  Proved: in every state of a run a call without force would skip only files whose present
  content was loaded exactly when no change leaves a file whose time is the remembered one
  with another content that was not loaded, and every load that is tried succeeds, or has
  before with that content (`skips_loaded_iff`): the time is remembered before the load is
  tried, and has a resolution of one second (`failed_load_skipped`).
-/

import Sylar.Lib.Lts
import Mathlib.Data.List.Nodup
import Mathlib.Logic.Function.Basic

namespace Sylar
namespace ConfDir

/-! ## The directory -/

structure File where
  content : String
  st_mtime : UInt64
  deriving DecidableEq, Repr

/-- An entry by its d_type; a directory may be closed to opendir. -/
inductive Entry where
  | reg (file : File)
  | dir (readable : Bool) (entries : List (String × Entry))
  | other

/-- The names in a directory differ and have no slash. -/
inductive Entry.Ok : Entry → Prop
  | reg (file : File) : Ok (.reg file)
  | other : Ok .other
  | dir (readable : Bool) {entries : List (String × Entry)} : (entries.map Prod.fst).Nodup →
      (∀ e ∈ entries, '/' ∉ e.1.toList) → (∀ e ∈ entries, Ok e.2) → Ok (.dir readable entries)

structure Tree where
  root : Entry
  ok : root.Ok

/-- `filename` ends in `subfix`. -/
def hasSubfix (subfix filename : String) : Bool :=
  if subfix.isEmpty then true
  else if filename.length < subfix.length then false
  else filename.toList.drop (filename.length - subfix.length) == subfix.toList

mutual

/-- One turn of the loop over readdir, with the recursive call. -/
def visit (subfix path d_name : String) : Entry → List (String × File)
  | .dir readable entries =>
    if d_name = "." ∨ d_name = ".." then []
    else if readable then readAll subfix (path ++ "/" ++ d_name) entries
    else []
  | .reg file => if hasSubfix subfix d_name then [(path ++ "/" ++ d_name, file)] else []
  | .other => []

def readAll (subfix path : String) : List (String × Entry) → List (String × File)
  | [] => []
  | (d_name, entry) :: rest => visit subfix path d_name entry ++ readAll subfix path rest

end

/-- `FSUtil::ListAllFile`, each path with what is there. -/
def ListAllFile (path subfix : String) : Entry → List (String × File)
  | .dir true entries => readAll subfix path entries
  | _ => []

/-! ## The calls -/

structure Loader where
  m : String → UInt64
  loaded : List (String × String)

/-- One turn of the loop over the files. -/
def loadFile (force : Bool) (ok : String → Bool) (s : Loader) (path : String) (file : File) : Loader × Bool :=
  if !force && s.m path == file.st_mtime then (s, true)
  else
    (⟨Function.update s.m path file.st_mtime,
      if ok path then (path, file.content) :: s.loaded else s.loaded⟩, false)

/-- The loop, and the files it skips. -/
def loadFiles (force : Bool) (ok : String → Bool) : List (String × File) → Loader → Loader × List (String × File)
  | [], s => (s, [])
  | (path, file) :: rest, s =>
    let r := loadFile force ok s path file
    let r' := loadFiles force ok rest r.1
    (r'.1, if r.2 then (path, file) :: r'.2 else r'.2)

structure State where
  tree : Tree
  loader : Loader

/-- The files of the directory. -/
def State.files (path : String) (s : State) : List (String × File) := ListAllFile path ".yml" s.tree.root

/-- `Config::LoadFromConfDir`; `path` is the absolute one. -/
def LoadFromConfDir (path : String) (force : Bool) (ok : String → Bool) (s : State) :
    Loader × List (String × File) :=
  loadFiles force ok (s.files path) s.loader

inductive Act where
  | edit (tree : Tree)
  | load (force : Bool) (ok : String → Bool)

inductive Step (path : String) (s : State) : Act → State → Prop
  | edit (tree : Tree) : Step path s (.edit tree) { s with tree := tree }
  | load (force : Bool) (ok : String → Bool) :
      Step path s (.load force ok) { s with loader := (LoadFromConfDir path force ok s).1 }

/-- The process starts; there is nothing in the directory yet. -/
structure Init (path : String) (s : State) : Prop where
  files : s.files path = []
  m : s.loader.m = fun _ => 0
  loaded : s.loader.loaded = []

/-- A call made now skips a file only if its content was loaded. -/
def SkipsLoaded (path : String) (s : State) : Prop :=
  ∀ ok, ∀ p ∈ (LoadFromConfDir path false ok s).2, (p.1, p.2.content) ∈ s.loader.loaded

/-- A file with the remembered time is as it was, or has a content that was loaded; a load
    that is tried succeeds, or did before. -/
def Fine (path : String) (s : State) : Act → Prop
  | .edit tree => ∀ p ∈ ListAllFile path ".yml" tree.root, p.2.st_mtime = s.loader.m p.1 →
      p ∈ s.files path ∨ (p.1, p.2.content) ∈ s.loader.loaded
  | .load force ok => ∀ p ∈ s.files path, (force = true ∨ p.2.st_mtime ≠ s.loader.m p.1) →
      ok p.1 = true ∨ (p.1, p.2.content) ∈ s.loader.loaded

/-! ## Paths -/

/-- Induction over the entries of a directory. -/
@[elab_as_elim]
theorem Entry.ind {P : Entry → Prop} (reg : ∀ file, P (.reg file)) (other : P .other)
    (dir : ∀ readable entries, (∀ e ∈ entries, P e.2) → P (.dir readable entries)) (entry : Entry) : P entry := by
  refine @Entry.rec P (fun entries => ∀ e ∈ entries, P e.2) (fun e => P e.2) reg dir other ?_ ?_ ?_ entry
  · nofun
  · intro first entries hfirst hentries e he
    rcases List.mem_cons.mp he with rfl | he
    · exact hfirst
    · exact hentries e he
  · intro d_name entry hentry
    exact hentry

theorem mem_readAll {subfix path : String} {entries : List (String × Entry)} {p : String × File} :
    p ∈ readAll subfix path entries ↔ ∃ e ∈ entries, p ∈ visit subfix path e.1 e.2 := by
  induction entries with
  | nil => simp [readAll]
  | cons e rest ih => simp only [readAll, List.mem_append, ih, List.mem_cons, exists_eq_or_imp]

/-- The path goes on below a name, or ends with it. -/
def Below (path d_name full : String) : Prop :=
  ∃ tail, full.toList = path.toList ++ '/' :: (d_name.toList ++ tail) ∧ ∀ c ∈ tail.head?, c = '/'

theorem toList_join (path d_name : String) :
    (path ++ "/" ++ d_name).toList = path.toList ++ '/' :: d_name.toList := by
  simp [String.toList_append]

theorem visit_below {subfix : String} (entry : Entry) :
    ∀ path d_name, ∀ p ∈ visit subfix path d_name entry, Below path d_name p.1 := by
  induction entry using Entry.ind with
  | other => exact fun _ _ _ hp => nomatch hp
  | reg file =>
    intro path d_name p hp
    rw [visit] at hp
    split at hp
    · rw [List.mem_singleton.mp hp]
      exact ⟨[], by rw [toList_join, List.append_nil], nofun⟩
    · cases hp
  | dir readable entries ih =>
    intro path d_name p hp
    rw [visit] at hp
    split at hp
    · cases hp
    · split at hp
      · obtain ⟨e, he, hp⟩ := mem_readAll.mp hp
        obtain ⟨tail, htail, -⟩ := ih e he _ _ p hp
        refine ⟨'/' :: (e.1.toList ++ tail), ?_, fun c hc => (Option.some_inj.mp hc).symm⟩
        rw [htail, toList_join, List.append_assoc, List.cons_append]
      · cases hp

/-- What is before the first slash. -/
theorem takeWhile_name {d_name tail : List Char} (hname : '/' ∉ d_name) (htail : ∀ c ∈ tail.head?, c = '/') :
    (d_name ++ tail).takeWhile (· != '/') = d_name := by
  rw [List.takeWhile_append_of_pos]
  · cases tail with
    | nil => simp
    | cons c tail =>
      rw [htail c rfl]
      simp
  · intro c hc
    have hne : c ≠ '/' := fun he => hname (he ▸ hc)
    simpa using hne

theorem Below.name_eq {path d_name d_name' full : String} (h : Below path d_name full)
    (h' : Below path d_name' full) (hn : '/' ∉ d_name.toList) (hn' : '/' ∉ d_name'.toList) : d_name = d_name' := by
  obtain ⟨tail, htail, hhead⟩ := h
  obtain ⟨tail', htail', hhead'⟩ := h'
  have heq : d_name.toList ++ tail = d_name'.toList ++ tail' := by
    have hsame := List.append_cancel_left (htail.symm.trans htail')
    exact (List.cons.inj hsame).2
  have hnames := congrArg (List.takeWhile (· != '/')) heq
  rw [takeWhile_name hn hhead, takeWhile_name hn' hhead'] at hnames
  exact String.toList_inj.mp hnames

theorem readAll_nodup {subfix path : String} {entries : List (String × Entry)} (hnames : (entries.map Prod.fst).Nodup)
    (hslash : ∀ e ∈ entries, '/' ∉ e.1.toList)
    (ih : ∀ e ∈ entries, ∀ path d_name, ((visit subfix path d_name e.2).map Prod.fst).Nodup) :
    ((readAll subfix path entries).map Prod.fst).Nodup := by
  induction entries with
  | nil => exact List.nodup_nil
  | cons e rest ihr =>
    rw [List.map_cons, List.nodup_cons] at hnames
    rw [readAll, List.map_append, List.nodup_append]
    refine ⟨ih e List.mem_cons_self _ _, ihr hnames.2 (fun e he => hslash e (List.mem_cons_of_mem _ he))
      (fun e he => ih e (List.mem_cons_of_mem _ he)), ?_⟩
    intro full hfull full' hfull' heq
    obtain ⟨p, hp, rfl⟩ := List.mem_map.mp hfull
    obtain ⟨p', hp', rfl⟩ := List.mem_map.mp hfull'
    obtain ⟨e', he', hp'⟩ := mem_readAll.mp hp'
    have hbelow := visit_below _ _ _ p hp
    rw [heq] at hbelow
    have hname := hbelow.name_eq (visit_below _ _ _ p' hp') (hslash e List.mem_cons_self)
      (hslash e' (List.mem_cons_of_mem _ he'))
    exact hnames.1 (List.mem_map.mpr ⟨e', he', hname.symm⟩)

theorem visit_nodup {subfix : String} (entry : Entry) (hok : entry.Ok) :
    ∀ path d_name, ((visit subfix path d_name entry).map Prod.fst).Nodup := by
  induction entry using Entry.ind with
  | other => exact fun _ _ => List.nodup_nil
  | reg file =>
    intro path d_name
    rw [visit]
    split
    · exact List.nodup_singleton _
    · exact List.nodup_nil
  | dir readable entries ih =>
    intro path d_name
    cases hok with
    | dir _ hnames hslash hall =>
      rw [visit]
      split
      · exact List.nodup_nil
      · split
        · exact readAll_nodup hnames hslash fun e he => ih e he (hall e he)
        · exact List.nodup_nil

/-- No path is listed twice. -/
theorem listAllFile_nodup (path subfix : String) (tree : Tree) :
    ((ListAllFile path subfix tree.root).map Prod.fst).Nodup := by
  obtain ⟨root, hok⟩ := tree
  cases hok with
  | reg => exact List.nodup_nil
  | other => exact List.nodup_nil
  | dir readable hnames hslash hall =>
    cases readable with
    | false => exact List.nodup_nil
    | true => exact readAll_nodup hnames hslash fun e he => visit_nodup e.2 (hall e he)

/-! ## One call -/

/-- The file is tried. -/
def Tried (force : Bool) (m : String → UInt64) (p : String × File) : Prop := force = true ∨ p.2.st_mtime ≠ m p.1

instance (force : Bool) (m : String → UInt64) (p : String × File) : Decidable (Tried force m p) :=
  inferInstanceAs (Decidable (_ ∨ _))

theorem loadFile_tried {force : Bool} {ok : String → Bool} {s : Loader} {p : String × File}
    (h : Tried force s.m p) : loadFile force ok s p.1 p.2 =
      (⟨Function.update s.m p.1 p.2.st_mtime, if ok p.1 then (p.1, p.2.content) :: s.loaded else s.loaded⟩, false) := by
  have hcond : ¬(!force && s.m p.1 == p.2.st_mtime) = true := by
    rcases h with h | h
    · simp [h]
    · simp [Ne.symm h]
  rw [loadFile, if_neg hcond]

theorem loadFile_skipped {force : Bool} {ok : String → Bool} {s : Loader} {p : String × File}
    (h : ¬Tried force s.m p) : loadFile force ok s p.1 p.2 = (s, true) := by
  obtain ⟨hforce, hsame⟩ := not_or.mp h
  have hcond : (!force && s.m p.1 == p.2.st_mtime) = true := by
    simp [hforce, not_not.mp hsame]
  rw [loadFile, if_pos hcond]

/-- What one file's turn does to the time remembered for a path, and to what is loaded. -/
theorem loadFile_m (force : Bool) (ok : String → Bool) (s : Loader) (p : String × File) :
    (loadFile force ok s p.1 p.2).1.m = Function.update s.m p.1 p.2.st_mtime := by
  by_cases h : Tried force s.m p
  · rw [loadFile_tried h]
  · rw [loadFile_skipped h]
    rw [not_not.mp (not_or.mp h).2, Function.update_eq_self]

theorem loadFile_loaded (force : Bool) (ok : String → Bool) (s : Loader) (p : String × File) (q : String × String) :
    q ∈ (loadFile force ok s p.1 p.2).1.loaded ↔
      q ∈ s.loaded ∨ Tried force s.m p ∧ ok p.1 = true ∧ q = (p.1, p.2.content) := by
  by_cases h : Tried force s.m p
  · rw [loadFile_tried h]
    cases hok : ok p.1 with
    | true => simp [h, or_comm]
    | false => simp
  · rw [loadFile_skipped h]
    simp [h]

/-- What a call over `files` skips, remembers and loads. -/
structure Called (force : Bool) (ok : String → Bool) (files : List (String × File)) (s : Loader)
    (r : Loader × List (String × File)) : Prop where
  skipped : ∀ p, p ∈ r.2 ↔ p ∈ files ∧ ¬Tried force s.m p
  m : ∀ p ∈ files, r.1.m p.1 = p.2.st_mtime
  others : ∀ path, path ∉ files.map Prod.fst → r.1.m path = s.m path
  loaded : ∀ q, q ∈ r.1.loaded ↔
    q ∈ s.loaded ∨ ∃ p ∈ files, Tried force s.m p ∧ ok p.1 = true ∧ q = (p.1, p.2.content)

theorem loadFiles_called {force : Bool} {ok : String → Bool} {files : List (String × File)}
    (hn : (files.map Prod.fst).Nodup) (s : Loader) : Called force ok files s (loadFiles force ok files s) := by
  induction files generalizing s with
  | nil => exact ⟨by simp [loadFiles], nofun, fun _ _ => rfl, by simp [loadFiles]⟩
  | cons p rest ih =>
    rw [List.map_cons, List.nodup_cons] at hn
    obtain ⟨hfresh, hn⟩ := hn
    have hih := ih hn (loadFile force ok s p.1 p.2).1
    -- The turn of `p` does not change what is remembered for the others.
    have hrest : ∀ p' ∈ rest, Tried force (loadFile force ok s p.1 p.2).1.m p' ↔ Tried force s.m p' := by
      intro p' hp'
      have hne : p'.1 ≠ p.1 := fun he => hfresh (List.mem_map.mpr ⟨p', hp', he⟩)
      rw [Tried, Tried, loadFile_m, Function.update_of_ne hne]
    have hskip : ∀ p', p' ∈ (loadFiles force ok rest (loadFile force ok s p.1 p.2).1).2 ↔
        p' ∈ rest ∧ ¬Tried force s.m p' := by
      intro p'
      rw [hih.skipped]
      exact and_congr_right fun hp' => not_congr (hrest p' hp')
    refine ⟨fun p' => ?_, fun p' hp' => ?_, fun path hpath => ?_, fun q => ?_⟩
    · rw [List.mem_cons]
      simp only [loadFiles]
      by_cases h : Tried force s.m p
      · rw [loadFile_tried h] at hskip ⊢
        simp only [Bool.false_eq_true, if_false, hskip]
        constructor
        · exact fun h' => ⟨.inr h'.1, h'.2⟩
        · rintro ⟨rfl | hp', hno⟩
          · exact absurd h hno
          · exact ⟨hp', hno⟩
      · rw [loadFile_skipped h] at hskip ⊢
        simp only [if_true, List.mem_cons, hskip]
        constructor
        · rintro (rfl | h')
          · exact ⟨.inl rfl, h⟩
          · exact ⟨.inr h'.1, h'.2⟩
        · rintro ⟨rfl | hp', hno⟩
          · exact .inl rfl
          · exact .inr ⟨hp', hno⟩
    · rcases List.mem_cons.mp hp' with rfl | hp'
      · refine (hih.others _ hfresh).trans ?_
        rw [loadFile_m, Function.update_self]
      · exact hih.m p' hp'
    · rw [List.map_cons, List.mem_cons, not_or] at hpath
      refine (hih.others _ hpath.2).trans ?_
      rw [loadFile_m, Function.update_of_ne hpath.1]
    · refine (hih.loaded q).trans ?_
      rw [loadFile_loaded, or_assoc, List.exists_mem_cons_iff]
      refine or_congr Iff.rfl (or_congr Iff.rfl ⟨?_, ?_⟩)
      · rintro ⟨p', hp', ht, h⟩
        exact ⟨p', hp', (hrest p' hp').mp ht, h⟩
      · rintro ⟨p', hp', ht, h⟩
        exact ⟨p', hp', (hrest p' hp').mpr ht, h⟩

/-! ## Runs -/

variable {path : String} {s s' : State} {a : Act}

theorem skipsLoaded_iff : SkipsLoaded path s ↔
    ∀ p ∈ s.files path, p.2.st_mtime = s.loader.m p.1 → (p.1, p.2.content) ∈ s.loader.loaded := by
  have hcalled : ∀ ok, Called false ok (s.files path) s.loader (LoadFromConfDir path false ok s) := fun _ =>
    loadFiles_called (listAllFile_nodup path ".yml" s.tree) s.loader
  constructor
  · intro h p hp he
    exact h (fun _ => true) p (((hcalled _).skipped p).mpr ⟨hp, fun ht => (ht.resolve_left Bool.false_ne_true) he⟩)
  · intro h ok p hp
    obtain ⟨hin, hno⟩ := ((hcalled ok).skipped p).mp hp
    exact h p hin (not_not.mp (not_or.mp hno).2)

theorem init_skipsLoaded (h : Init path s) : SkipsLoaded path s := by
  rw [skipsLoaded_iff, h.files]
  nofun

theorem fine_iff (hi : SkipsLoaded path s) (hs : Step path s a s') : SkipsLoaded path s' ↔ Fine path s a := by
  rw [skipsLoaded_iff] at hi ⊢
  cases hs with
  | edit tree =>
    constructor
    · exact fun h p hp he => .inr (h p hp he)
    · intro h p hp he
      rcases h p hp he with hsame | hloaded
      · exact hi p hsame he
      · exact hloaded
  | load force ok =>
    have hcalled : Called force ok (s.files path) s.loader (LoadFromConfDir path force ok s) :=
      loadFiles_called (listAllFile_nodup path ".yml" s.tree) s.loader
    constructor
    · intro h p hp htried
      rcases (hcalled.loaded _).mp (h p hp (hcalled.m p hp).symm) with hbefore | ⟨p', hp', ht, hok, he⟩
      · exact .inr hbefore
      · exact .inl ((Prod.mk.inj he).1 ▸ hok)
    · intro h p hp _
      refine (hcalled.loaded _).mpr ?_
      by_cases ht : Tried force s.loader.m p
      · rcases h p hp ht with hok | hbefore
        · exact .inr ⟨p, hp, ht, hok, rfl⟩
        · exact .inl hbefore
      · exact .inl (hi p hp (not_not.mp (not_or.mp ht).2))

/-- In every run of changes and calls, every state skips only what was loaded exactly when
    every change and every call is `Fine`. -/
theorem skips_loaded_iff {tr : List (Act × State)} (hi : Init path s) (hr : Lts.Run (Step path) s tr) :
    Lts.Every (fun _ _ s' => SkipsLoaded path s') s tr ↔ Lts.Every (fun s a _ => Fine path s a) s tr :=
  hr.every_iff (J := SkipsLoaded path) (P := fun _ _ s' => SkipsLoaded path s') (G := Fine path)
    (fun _ _ _ hj hg hs => (fine_iff hj hs).mpr hg) (fun _ _ _ hj hs => fine_iff hj hs) (init_skipsLoaded hi)

/-- One file, written at time 1. -/
def oneFile (content : String) : Tree :=
  ⟨.dir true [("a.yml", .reg ⟨content, 1⟩)], .dir true (List.nodup_singleton _)
    (List.forall_mem_singleton.mpr (show '/' ∉ "a.yml".toList by decide)) (List.forall_mem_singleton.mpr (.reg _))⟩

def empty : State := ⟨⟨.dir true [], .dir true .nil nofun nofun⟩, ⟨fun _ => 0, []⟩⟩

theorem empty_init (path : String) : Init path empty := ⟨rfl, rfl, rfl⟩

def written : State := { empty with tree := oneFile "a: 1" }

def called (ok : Bool) : State := { written with loader := (LoadFromConfDir "conf" false (fun _ => ok) written).1 }

theorem written_run (ok : Bool) : Lts.Run (Step "conf") empty
    [(.edit (oneFile "a: 1"), written), (.load false fun _ => ok, called ok)] :=
  .cons (.edit _) (.cons (.load false fun _ => ok) (.nil _))

theorem written_fine : Fine "conf" empty (.edit (oneFile "a: 1")) := by
  intro p hp
  rw [List.mem_singleton.mp (show p ∈ [("conf/a.yml", (⟨"a: 1", 1⟩ : File))] from hp)]
  decide

/-- The file is written and loaded. -/
theorem skips_loaded_oneFile : Lts.Every (fun _ _ s' => SkipsLoaded "conf" s') empty
    [(Act.edit (oneFile "a: 1"), written), (Act.load false fun _ => true, called true)] :=
  (skips_loaded_iff (empty_init "conf") (written_run true)).mpr ⟨written_fine, fun _ _ _ => .inl rfl, trivial⟩

/-- The load fails, and the file is not tried again. -/
theorem failed_load_skipped : ∃ s tr, Init "conf" s ∧ Lts.Run (Step "conf") s tr ∧
    ¬Lts.Every (fun _ _ s' => SkipsLoaded "conf" s') s tr := by
  refine ⟨empty, _, empty_init "conf", written_run false, ?_⟩
  rintro ⟨-, h, -⟩
  have hskipped : (LoadFromConfDir "conf" false (fun _ => true) (called false)).2 = [("conf/a.yml", ⟨"a: 1", 1⟩)] := by
    decide
  have hloaded := h (fun _ => true) ("conf/a.yml", ⟨"a: 1", 1⟩) (by rw [hskipped]; exact List.mem_singleton.mpr rfl)
  have hnone : (called false).loader.loaded = [] := by decide
  rw [hnone] at hloaded
  cases hloaded

end ConfDir
end Sylar
