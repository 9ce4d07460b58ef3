/-
  Sylar.Util.Replace — `FSUtil::Mv` and `FSUtil::Symlink` (sylar/util.cpp lines 260-266,
  280-285): both first remove what `to` names, then rename or make the link there.

  rename and symlink are as the system does them, with an entry that is in the way too;
  after `Rm(to)` there is none. A directory may be written with slashes at its end.

  Proved: `mv_moves`, what is moved, what is lost and what stays, for all paths: Mv that
  returns true has the subtree of `from` at `to`, under the name that `to` ends in and in
  the directory it leads to, and has changed nothing else; Mv that
  returns false has at most removed what was at `to`, which is all of `from` when that is
  at or below `to`. `symlink_replaces`: Symlink, which never looks at `from`, puts the link
  where `to` was, also when it has just removed what `from` named.
-/

import Sylar.Util.Rm

namespace Sylar.FSUtil

/-! ## A subtree moved -/

theorem mem_entries_iff {entries : List (Loc × Entry)} (h : (entries.map Prod.fst).Nodup) {loc : Loc} {e : Entry} :
    entries.lookup loc = some e ↔ (loc, e) ∈ entries := by
  induction entries with
  | nil => simp
  | cons first rest ih =>
    obtain ⟨hout, hrest⟩ := List.nodup_cons.mp h
    rw [List.lookup_cons, List.mem_cons]
    by_cases heq : loc = first.1
    · subst heq
      rw [beq_self_eq_true]
      constructor
      · intro he
        cases he
        exact .inl rfl
      · rintro (he | hin)
        · rw [← he]
        · exact absurd (List.mem_map_of_mem hin) hout
    · rw [beq_eq_false_iff_ne.mpr heq, ih hrest]
      constructor
      · exact .inr
      · rintro (he | hin)
        · exact absurd (congrArg Prod.fst he) heq
        · exact hin

/-- Where an entry is once `old` is at `new`. -/
def relocate (old new loc : Loc) : Loc :=
  if old <:+ loc then loc.take (loc.length - old.length) ++ new else loc

theorem relocate_below (old new names : Loc) : relocate old new (names ++ old) = names ++ new := by
  have hlen : (names ++ old).length - old.length = names.length := by simp
  rw [relocate, if_pos (List.suffix_append names old), hlen, List.take_left']
  rfl

theorem relocate_self (old new : Loc) : relocate old new old = new := relocate_below old new []

theorem relocate_other {old new loc : Loc} (h : ¬old <:+ loc) : relocate old new loc = loc := if_neg h

/-- Two entries, none of them at or below `new`, do not meet. -/
theorem relocate_inj {old new l l' : Loc} (h : ¬new <:+ l) (h' : ¬new <:+ l')
    (heq : relocate old new l = relocate old new l') : l = l' := by
  by_cases hl : old <:+ l
  · obtain ⟨names, rfl⟩ := hl
    rw [relocate_below] at heq
    by_cases hl' : old <:+ l'
    · obtain ⟨names', rfl⟩ := hl'
      rw [relocate_below] at heq
      rw [List.append_cancel_right heq]
    · rw [relocate_other hl'] at heq
      exact absurd ⟨names, heq⟩ h'
  · rw [relocate_other hl] at heq
    by_cases hl' : old <:+ l'
    · obtain ⟨names', rfl⟩ := hl'
      rw [relocate_below] at heq
      exact absurd ⟨names', heq.symm⟩ h
    · rwa [relocate_other hl'] at heq

/-- `old` may go to `name` in `dir`: a free name in a directory that is not in it. -/
structure Tree.Free (T : Tree) (old : Loc) (name : String) (dir : Loc) : Prop where
  none : T.entry (name :: dir) = none
  isDir : T.isDir dir
  proper : Proper name
  apart : ¬old <:+ name :: dir
  notRoot : old ≠ []

theorem Tree.Free.not_below {T : Tree} {old : Loc} {name : String} {dir : Loc} (h : T.Free old name dir) {l : Loc}
    {e : Entry} (he : (l, e) ∈ T.entries) : ¬(name :: dir) <:+ l := by
  intro hin
  have hsome : (T.entry l).isSome := Option.isSome_of_mem ((mem_entries_iff T.nodup).mpr he)
  have hnew : (T.entry (name :: dir)).isSome := by
    by_cases heq : l = name :: dir
    · rwa [← heq]
    · exact Tree.isDir_isSome (Tree.isDir_of_below hin heq hsome)
  rw [h.none] at hnew
  cases hnew

theorem Tree.Free.nodup {T : Tree} {old : Loc} {name : String} {dir : Loc} (h : T.Free old name dir) :
    ((T.entries.map fun p => (relocate old (name :: dir) p.1, p.2)).map Prod.fst).Nodup := by
  have hmap : (T.entries.map fun p => (relocate old (name :: dir) p.1, p.2)).map Prod.fst =
      (T.entries.map Prod.fst).map (relocate old (name :: dir)) := by
    rw [List.map_map, List.map_map]
    rfl
  rw [hmap]
  refine List.Nodup.map_on ?_ T.nodup
  intro l hl l' hl' heq
  obtain ⟨p, hp, rfl⟩ := List.mem_map.mp hl
  obtain ⟨p', hp', rfl⟩ := List.mem_map.mp hl'
  exact relocate_inj (h.not_below hp) (h.not_below hp') heq

/-- The entries after the move, by where they were. -/
theorem Tree.Free.lookup {T : Tree} {old : Loc} {name : String} {dir : Loc} (h : T.Free old name dir) {l : Loc}
    {e : Entry} : (T.entries.map fun p => (relocate old (name :: dir) p.1, p.2)).lookup l = some e ↔
      ∃ l', relocate old (name :: dir) l' = l ∧ e ∈ T.entry l' := by
  rw [mem_entries_iff h.nodup, List.mem_map]
  constructor
  · rintro ⟨⟨l', e'⟩, hin, heq⟩
    cases heq
    exact ⟨l', rfl, (mem_entries_iff T.nodup).mpr hin⟩
  · rintro ⟨l', rfl, he⟩
    exact ⟨(l', e), (mem_entries_iff T.nodup).mp he, rfl⟩

/-- The location above a relocated one. -/
theorem relocate_cons {old new : Loc} {name : String} {dir l : Loc} (hl : relocate old new l = name :: dir)
    (hne : l ≠ old) : ∃ dir', l = name :: dir' ∧ relocate old new dir' = dir := by
  by_cases hin : old <:+ l
  · obtain ⟨names, rfl⟩ := hin
    rw [relocate_below] at hl
    cases names with
    | nil => exact absurd rfl hne
    | cons first names =>
      obtain ⟨rfl, rfl⟩ := List.cons.inj hl
      exact ⟨names ++ old, rfl, relocate_below old new names⟩
  · rw [relocate_other hin] at hl
    subst hl
    refine ⟨dir, rfl, relocate_other fun hdir => hin ?_⟩
    exact hdir.trans (List.suffix_cons name dir)

def Tree.moved (T : Tree) (old : Loc) (name : String) (dir : Loc) (h : T.Free old name dir) : Tree where
  entries := T.entries.map fun p => (relocate old (name :: dir) p.1, p.2)
  nodup := h.nodup
  closed := by
    intro name' dir' hsome
    obtain ⟨e, he⟩ := Option.isSome_iff_exists.mp hsome
    obtain ⟨l, hl, he⟩ := h.lookup.mp he
    by_cases hold : l = old
    · -- the moved entry itself: its new directory was there, and stays where it is
      rw [hold, relocate_self] at hl
      obtain ⟨rfl, rfl⟩ := List.cons.inj hl
      obtain ⟨e', he', hkind⟩ := h.isDir
      refine ⟨e', h.lookup.mpr ⟨dir, relocate_other fun hin => h.apart ?_, he'⟩, hkind⟩
      exact hin.trans (List.suffix_cons name dir)
    · obtain ⟨dir'', rfl, hdir⟩ := relocate_cons hl hold
      obtain ⟨e', he', hkind⟩ := T.closed name' dir'' (Option.isSome_of_mem he)
      exact ⟨e', h.lookup.mpr ⟨dir'', hdir, he'⟩, hkind⟩
  proper := by
    intro name' dir' hsome
    obtain ⟨e, he⟩ := Option.isSome_iff_exists.mp hsome
    obtain ⟨l, hl, he⟩ := h.lookup.mp he
    by_cases hold : l = old
    · rw [hold, relocate_self] at hl
      obtain ⟨rfl, rfl⟩ := List.cons.inj hl
      exact h.proper
    · obtain ⟨dir'', rfl, -⟩ := relocate_cons hl hold
      exact T.proper name' dir'' (Option.isSome_of_mem he)

/-- The subtree is at its new place, with nothing left at the old one. -/
theorem Tree.entry_moved (T : Tree) (old : Loc) (name : String) (dir : Loc) (h : T.Free old name dir) :
    (∀ names, (T.moved old name dir h).entry (names ++ name :: dir) = T.entry (names ++ old)) ∧
    ∀ l, ¬(name :: dir) <:+ l → (T.moved old name dir h).entry l = if old <:+ l then none else T.entry l := by
  constructor
  · intro names
    apply Option.ext
    intro e
    refine h.lookup.trans ⟨?_, fun he => ⟨names ++ old, relocate_below _ _ _, he⟩⟩
    rintro ⟨l, hl, he⟩
    have hout := h.not_below ((mem_entries_iff T.nodup).mp he)
    by_cases hin : old <:+ l
    · obtain ⟨names', rfl⟩ := hin
      rw [relocate_below] at hl
      rwa [List.append_cancel_right hl] at he
    · rw [relocate_other hin] at hl
      exact absurd ⟨names, hl.symm⟩ hout
  · intro l hout
    apply Option.ext
    intro e
    refine h.lookup.trans ⟨?_, fun he => ?_⟩
    · rintro ⟨l', hl, he⟩
      by_cases hin : old <:+ l'
      · obtain ⟨names', rfl⟩ := hin
        rw [relocate_below] at hl
        exact absurd ⟨names', hl⟩ hout
      · rw [relocate_other hin] at hl
        rwa [← hl, if_neg hin]
    · split at he
      · cases he
      · next hin => exact ⟨l, relocate_other hin, he⟩

instance (T : Tree) (old : Loc) (name : String) (dir : Loc) : Decidable (T.Free old name dir) :=
  decidable_of_iff
    (T.entry (name :: dir) = none ∧ T.isDir dir ∧ Proper name ∧ ¬old <:+ name :: dir ∧ old ≠ [])
    ⟨fun h => ⟨h.1, h.2.1, h.2.2.1, h.2.2.2.1, h.2.2.2.2⟩,
      fun h => ⟨h.none, h.isDir, h.proper, h.apart, h.notRoot⟩⟩

theorem Tree.add_sub (T : Tree) (name : String) (dir : Loc) (e : Entry) (hnew hdir hname) :
    T.Sub (T.add name dir e hnew hdir hname) := by
  intro l e' he
  have hne : l ≠ name :: dir := by
    rintro rfl
    rw [hnew] at he
    cases he
  rwa [Tree.entry_add, if_neg hne]

/-! ## The system calls -/

section

variable (P : Process) (T : Tree)

/-- For rename, which leaves slashes at the end of a directory's path aside. -/
def named (directory : Bool) (path : String) : Option (Loc × String) :=
  if directory then stripped P T path else whole P T path

/-- From a location that is there to a name in a directory; an empty directory or a file
    of that name makes place for one of its kind. -/
def renameAt (old : Loc) (name : String) (dir : Loc) : Bool × Tree :=
  if old = name :: dir then (true, T)
  else if h : T.Free old name dir then
    if P.may.remove old ∧ P.may.make (name :: dir) then (true, T.moved old name dir h) else (false, T)
  else if h : T.names (name :: dir) = [] ∧ (T.entry (name :: dir)).isSome ∧ (T.isDir old ↔ T.isDir (name :: dir)) then
    if h' : (T.erase (name :: dir) h.1).Free old name dir then
      if P.may.remove old ∧ P.may.remove (name :: dir) then
        (true, (T.erase (name :: dir) h.1).moved old name dir h')
      else (false, T)
    else (false, T)
  else (false, T)

def rename (oldpath newpath : String) : Bool × Tree :=
  match stripped P T oldpath with
  | none => (false, T)
  | some (dir, name) =>
    match T.entry (name :: dir) with
    | none => (false, T)
    | some e =>
      match named P T (e.kind = .DIR) oldpath, named P T (e.kind = .DIR) newpath with
      | some _, some (dir', name') => renameAt P T (name :: dir) name' dir'
      | _, _ => (false, T)

def symlink (target linkpath : String) : Bool × Tree :=
  match whole P T linkpath with
  | some (dir, name) =>
    if h : target ≠ "" ∧ T.entry (name :: dir) = none ∧ T.isDir dir ∧ Proper name ∧ P.may.make (name :: dir) then
      (true, T.add name dir ⟨.LNK target, 0o777⟩ h.2.1 h.2.2.1 h.2.2.2.1)
    else (false, T)
  | none => (false, T)

/-- `FSUtil::Mv(from, to)`. -/
def Mv (fromPath toPath : String) : Option (Bool × Tree) :=
  match Rm P T toPath with
  | none => none
  | some (false, T) => some (false, T)
  | some (true, T) => some (rename P T fromPath toPath)

/-- `FSUtil::Symlink(from, to)`. -/
def Symlink (fromPath toPath : String) : Option (Bool × Tree) :=
  match Rm P T toPath with
  | none => none
  | some (false, T) => some (false, T)
  | some (true, T) => some (symlink P T fromPath toPath)

end

/-! ## What is at `to` -/

section

variable {P : Process} {T T₁ T' : Tree} {path fromPath toPath name : String} {dir loc : Loc} {ret : Bool}

theorem stripped_of_whole (h : whole P T path = some (dir, name)) : stripped P T path = some (dir, name) := by
  obtain ⟨front, hpieces, hname, -⟩ := whole_iff.mp h
  have hreverse : (pieces path).reverse = name :: front.reverse := by rw [hpieces, List.reverse_concat]
  have hne : decide (name = "") = false := decide_eq_false fun he => hname (.inl he)
  rw [whole, hreverse] at h
  rw [stripped, hreverse, List.dropWhile_cons, hne]
  exact h

theorem stripped_of_named {directory : Bool} (h : named P T directory path = some (dir, name)) :
    stripped P T path = some (dir, name) := by
  cases directory with
  | true => exact h
  | false => exact stripped_of_whole h

/-- What is named for rename, lstat finds. -/
theorem lstat_named {e : Entry} (h : named P T (e.kind = .DIR) path = some (dir, name))
    (he : e ∈ T.entry (name :: dir)) : lstat P T path = some (name :: dir) := by
  by_cases hkind : e.kind = .DIR
  · rw [named, if_pos (decide_eq_true hkind)] at h
    exact lstat_stripped h ⟨e, he, hkind⟩
  · rw [named, if_neg (by simpa using hkind)] at h
    rw [lstat_whole h, if_pos (Option.isSome_of_mem he)]

/-- After `Rm(to)` the path ends in the name that was removed, if any, -/
theorem removed_named (h : Outcome P T toPath true T₁) (hloc : lstat P T toPath = some loc)
    (hname : stripped P T₁ toPath = some (dir, name)) : loc = name :: dir := by
  have hname' : stripped P T toPath = some (dir, name) := parent_mono h.sub hname
  by_cases hdir : T.isDir loc
  · obtain ⟨name', dir', rfl, hstripped⟩ := h.named loc hloc rfl hdir
    cases hname'.symm.trans (parent_mono (T.keep_sub _ _) hstripped)
    rfl
  · obtain ⟨dir', name', rfl, hwhole⟩ := whole_lstat hloc hdir
    cases hname'.symm.trans (stripped_of_whole hwhole)
    rfl

/-- and lstat finds nothing there. -/
theorem removed_lstat (h : Outcome P T toPath true T₁) : lstat P T₁ toPath = none := by
  cases hloc : lstat P T₁ toPath with
  | none => rfl
  | some loc =>
    have hsome := lstat_isSome hloc
    rw [h.gone loc (lstat_mono h.sub hloc) rfl] at hsome
    cases hsome

/-- What was not at or below `to` is as it was. -/
def OnlyAt (P : Process) (T : Tree) (toPath : String) (T' : Tree) : Prop :=
  T'.Sub T ∧ ∀ l, (∀ loc, lstat P T toPath = some loc → ¬loc <:+ l) → T'.entry l = T.entry l

theorem Outcome.onlyAt (h : Outcome P T toPath ret T₁) : OnlyAt P T toPath T₁ := by
  refine ⟨h.sub, fun l hout => ?_⟩
  cases hloc : lstat P T toPath with
  | none => rw [(h.absent hloc).2]
  | some loc => exact h.rest hloc (hout loc hloc)

theorem isDir_iff {e : Entry} (he : e ∈ T.entry loc) : T.isDir loc ↔ e.kind = .DIR := by
  constructor
  · rintro ⟨e', he', hkind⟩
    cases Option.mem_unique he he'
    exact hkind
  · exact fun hkind => ⟨e, he, hkind⟩

/-! ## Mv -/

/-- With nothing at its new name a rename moves, or does nothing. -/
theorem rename_cases (fromPath : String) (hnone : lstat P T toPath = none) : rename P T fromPath toPath = (false, T) ∨
    ∃ old dir name, ∃ h : T.Free old name dir, lstat P T fromPath = some old ∧
      stripped P T toPath = some (dir, name) ∧ rename P T fromPath toPath = (true, T.moved old name dir h) := by
  unfold rename
  cases hold : stripped P T fromPath with
  | none => exact .inl rfl
  | some r =>
    obtain ⟨dir, name⟩ := r
    dsimp only
    cases he : T.entry (name :: dir) with
    | none => exact .inl rfl
    | some e =>
      dsimp only
      cases hfrom : named P T (e.kind = .DIR) fromPath with
      | none => exact .inl rfl
      | some r =>
        cases hto : named P T (e.kind = .DIR) toPath with
        | none => exact .inl rfl
        | some r' =>
          obtain ⟨dir', name'⟩ := r'
          obtain ⟨d, n⟩ := r
          cases hold.symm.trans (stripped_of_named hfrom)
          -- an entry at the new name of the same kind would have been found by lstat
          have habsent : ∀ e' ∈ T.entry (name' :: dir'), (e'.kind = .DIR ↔ e.kind = .DIR) → False := by
            intro e' he' hkind
            have hdir : decide (e.kind = .DIR) = decide (e'.kind = .DIR) := by simp [hkind]
            rw [hdir] at hto
            exact nomatch hnone.symm.trans (lstat_named hto he')
          dsimp only
          unfold renameAt
          split
          · next heq =>
            rw [heq] at he
            exact absurd Iff.rfl (habsent e he)
          · split
            · next h =>
              split
              · exact .inr ⟨_, _, _, h, lstat_named hfrom he, stripped_of_named hto, rfl⟩
              · exact .inl rfl
            · split
              · next h =>
                obtain ⟨e', he'⟩ := Option.isSome_iff_exists.mp h.2.1
                have hkind := h.2.2
                rw [isDir_iff he, isDir_iff he'] at hkind
                exact absurd hkind.symm (habsent e' he')
              · exact .inl rfl

/-- The subtree of `old` is at `new`, in place of what was there, and nothing else changed. -/
structure Moved (old new : Loc) (T T' : Tree) : Prop where
  apart : ¬new <:+ old ∧ ¬old <:+ new
  subtree : ∀ names, T'.entry (names ++ new) = T.entry (names ++ old)
  rest : ∀ l, ¬new <:+ l → T'.entry l = if old <:+ l then none else T.entry l

/-- What Rm left is moved, so what was there before it. -/
theorem moved_after {old : Loc} (h : Outcome P T toPath true T₁) (hfree : T₁.Free old name dir)
    (hold : (T₁.entry old).isSome) (hname : stripped P T₁ toPath = some (dir, name)) :
    Moved old (name :: dir) T (T₁.moved old name dir hfree) := by
  have hrest : ∀ l, ¬(name :: dir) <:+ l → T₁.entry l = T.entry l := by
    intro l hl
    refine h.onlyAt.2 l fun loc hloc => ?_
    rwa [removed_named h hloc hname]
  have hout : ¬(name :: dir) <:+ old := by
    obtain ⟨e, he⟩ := Option.isSome_iff_exists.mp hold
    exact hfree.not_below ((mem_entries_iff T₁.nodup).mp he)
  obtain ⟨hsubtree, hother⟩ := T₁.entry_moved old name dir hfree
  refine ⟨⟨hout, hfree.apart⟩, fun names => ?_, fun l hl => ?_⟩
  · -- the new location is on no way to `old`, nor below it
    rw [hsubtree names, hrest]
    intro hin
    rcases List.suffix_or_suffix_of_suffix hin (List.suffix_append names old) with hbelow | habove
    · exact hout hbelow
    · exact hfree.apart habove
  · rw [hother l hl, hrest l hl]

theorem Rm_outcome (P : Process) (T : Tree) (path : String) :
    ∃ ret T', Rm P T path = some (ret, T') ∧ Outcome P T path ret T' := by
  obtain ⟨ret, T', hrm⟩ := @rm_total P T path T.height (Nat.succ_pos _) fun loc _ => enough_height T loc
  exact ⟨ret, T', hrm, rm_outcome hrm⟩

theorem rename_removed {old : Loc} (h : Outcome P T toPath true T₁) (hold : lstat P T fromPath = some old)
    (hgone : T₁.entry old = none) : rename P T₁ fromPath toPath = (false, T₁) := by
  rcases rename_cases fromPath (removed_lstat h) with hrename | ⟨old', dir, name, hfree, hfrom, -, -⟩
  · exact hrename
  · cases hold.symm.trans (lstat_mono h.sub hfrom)
    have hsome := lstat_isSome hfrom
    rw [hgone] at hsome
    cases hsome

theorem mv_moves (P : Process) (T : Tree) (fromPath toPath : String) :
    ∃ ret T', Mv P T fromPath toPath = some (ret, T') ∧
      (ret = true → ∃ old dir name, lstat P T fromPath = some old ∧ stripped P T toPath = some (dir, name) ∧
        (∀ loc, lstat P T toPath = some loc → loc = name :: dir) ∧ Moved old (name :: dir) T T') ∧
      (ret = false → OnlyAt P T toPath T') ∧
      ∀ old loc, lstat P T fromPath = some old → lstat P T toPath = some loc → loc <:+ old →
        ret = false ∧ ∀ T₁, Rm P T toPath = some (true, T₁) → ∀ l, loc <:+ l → T'.entry l = none := by
  obtain ⟨removed, T₁, hrm, houtcome⟩ := Rm_outcome P T toPath
  cases removed with
  | false =>
    refine ⟨false, T₁, by rw [Mv, hrm], nofun, fun _ => houtcome.onlyAt, ?_⟩
    intro old loc _ _ _
    refine ⟨rfl, fun T₂ hrm' => ?_⟩
    cases hrm.symm.trans hrm'
  | true =>
    have hmv : Mv P T fromPath toPath = some (rename P T₁ fromPath toPath) := by rw [Mv, hrm]
    have hgone : ∀ loc, lstat P T toPath = some loc → ∀ l, loc <:+ l → T₁.entry l = none := fun loc hloc l hin =>
      gone_below (houtcome.gone loc hloc rfl) hin
    rcases rename_cases fromPath (removed_lstat houtcome) with
      hrename | ⟨old, dir, name, hfree, hfrom, hto, hrename⟩
    · rw [hrename] at hmv
      exact ⟨false, T₁, hmv, nofun, fun _ => houtcome.onlyAt, fun _ loc _ hloc _ => ⟨rfl, fun _ _ => hgone loc hloc⟩⟩
    · rw [hrename] at hmv
      have hmoved := moved_after houtcome hfree (lstat_isSome hfrom) hto
      have hname : stripped P T toPath = some (dir, name) := parent_mono houtcome.sub hto
      refine ⟨true, _, hmv, fun _ => ⟨old, dir, name, lstat_mono houtcome.sub hfrom, hname, ?_, hmoved⟩, nofun, ?_⟩
      · exact fun loc hloc => removed_named houtcome hloc hto
      · -- Rm took `from` away, so there was nothing to rename
        intro old' loc hold hloc hin
        rw [rename_removed houtcome hold (hgone loc hloc old' hin)] at hrename
        cases hrename

/-! ## Symlink -/

/-- A new entry, and all else as it was. -/
structure Linked (target : String) (new : Loc) (T T' : Tree) : Prop where
  link : T'.entry new = some ⟨.LNK target, 0o777⟩
  below : ∀ l, new <:+ l → l ≠ new → T'.entry l = none
  rest : ∀ l, ¬new <:+ l → T'.entry l = T.entry l

theorem symlink_cases (P : Process) (T : Tree) (target linkpath : String) :
    symlink P T target linkpath = (false, T) ∨
    ∃ dir name, ∃ h : T.entry (name :: dir) = none ∧ T.isDir dir ∧ Proper name,
      whole P T linkpath = some (dir, name) ∧
      symlink P T target linkpath = (true, T.add name dir ⟨.LNK target, 0o777⟩ h.1 h.2.1 h.2.2) := by
  unfold symlink
  cases hwhole : whole P T linkpath with
  | none => exact .inl rfl
  | some r =>
    obtain ⟨dir, name⟩ := r
    dsimp only
    split
    · next h => exact .inr ⟨dir, name, ⟨h.2.1, h.2.2.1, h.2.2.2.1⟩, rfl, rfl⟩
    · exact .inl rfl

theorem linked_after (h : Outcome P T toPath true T₁)
    (hnew : T₁.entry (name :: dir) = none ∧ T₁.isDir dir ∧ Proper name) (hname : whole P T₁ toPath = some (dir, name))
    (target : String) : Linked target (name :: dir) T
      (T₁.add name dir ⟨.LNK target, 0o777⟩ hnew.1 hnew.2.1 hnew.2.2) := by
  refine ⟨?_, fun l hin hne => ?_, fun l hout => ?_⟩
  · rw [Tree.entry_add, if_pos rfl]
  · rw [Tree.entry_add, if_neg hne]
    exact gone_below hnew.1 hin
  · have hne : l ≠ name :: dir := fun heq => hout (heq ▸ List.suffix_refl l)
    rw [Tree.entry_add, if_neg hne]
    refine h.onlyAt.2 l fun loc hloc => ?_
    rwa [removed_named h hloc (stripped_of_whole hname)]

theorem symlink_replaces (P : Process) (T : Tree) (fromPath toPath : String) :
    ∃ ret T', Symlink P T fromPath toPath = some (ret, T') ∧
      (ret = true → ∃ new, (∀ loc, lstat P T toPath = some loc → loc = new) ∧ Linked fromPath new T T' ∧
        lstat P T' toPath = some new) ∧
      (ret = false → OnlyAt P T toPath T') := by
  obtain ⟨removed, T₁, hrm, houtcome⟩ := Rm_outcome P T toPath
  cases removed with
  | false => exact ⟨false, T₁, by rw [Symlink, hrm], nofun, fun _ => houtcome.onlyAt⟩
  | true =>
    have hsymlink : Symlink P T fromPath toPath = some (symlink P T₁ fromPath toPath) := by rw [Symlink, hrm]
    rcases symlink_cases P T₁ fromPath toPath with hfail | ⟨dir, name, hnew, hname, hmade⟩
    · rw [hfail] at hsymlink
      exact ⟨false, T₁, hsymlink, nofun, fun _ => houtcome.onlyAt⟩
    · rw [hmade] at hsymlink
      have hlinked := linked_after houtcome hnew hname fromPath
      refine ⟨true, _, hsymlink, fun _ => ⟨name :: dir, fun loc hloc => ?_, hlinked, ?_⟩, nofun⟩
      · exact removed_named houtcome hloc (stripped_of_whole hname)
      · rw [lstat_whole (parent_mono (T₁.add_sub _ _ _ _ _ _) hname), if_pos (Option.isSome_of_mem hlinked.link)]

end

end Sylar.FSUtil
