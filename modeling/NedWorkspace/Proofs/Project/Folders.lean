/-
# Which lists of source folders are accepted

SPEC_FULL, section 4.2: configuration source.

A list is refused because of its first line that leads outside the project (`Folders.Outside`): it begins
at the root or goes up. The slashes at its end are cut off before the line is looked at. That changes no
component of a path, unless the path is made of slashes alone: such a line names the root of all paths,
but is taken for the root of the project. What is accepted lies at or below the root of every project,
because joining a relative path adds components to it.

The main result is `Folders.ofText_exact`; `Folders.slash_accepted` is a line that should be refused.
-/

import Mathlib.Data.List.DropRight
import NedWorkspace.Project.Folders
import NedWorkspace.Proofs.Path

namespace NedWorkspace

namespace Folders

open NedWorkspace.Path

/-! ### Lines -/

/-- A text is cut at its line feeds. -/
theorem lineChars_eq (cs : List Char) : lineChars cs = cs.splitOn '\n' := by
  induction cs with
  | nil => rfl
  | cons c cs ih =>
    have hcons : (c :: cs).splitOn '\n' =
        if (c == '\n') = true then [] :: cs.splitOn '\n' else (cs.splitOn '\n').modifyHead (c :: ·) :=
      List.splitOnP_cons_eq_if_modifyHead ..
    rw [lineChars, ih, hcons]
    cases hcs : cs.splitOn '\n' with
    | nil => exact absurd hcs (List.splitOnP_ne_nil _ _)
    | cons l ls => simp [beq_iff_eq]

/-- The lines of a text, without comments and the blanks around what is left. -/
def contents (text : String) : List (List Char) :=
  (text.toList.splitOn '\n').map content

/-- A path leads outside the folder from which it is seen: it goes up, or it begins at the root and is
more than slashes. -/
def Outside (line : List Char) : Prop :=
  ((⟨String.ofList line⟩ : Path).isAbsolute = true ∧ ∃ c ∈ line, c ≠ '/') ∨
    .up ∈ (⟨String.ofList line⟩ : Path).components

/-- The folders that lines name, in order, each once. -/
def named (lines : List (List Char)) : List Path :=
  ((lines.filter fun line => !line.isEmpty).map folderOf).eraseDupsBy Path.same

/-! ### One line -/

/-- A folder stays below the root of the project if its path neither starts at the root nor goes up. -/
theorem isBelow_iff {folder : Path} :
    isBelow folder = true ↔ .root ∉ folder.components ∧ .up ∉ folder.components := by
  rw [isBelow, List.all_eq_true]
  constructor
  · exact fun h => ⟨fun hmem => by simpa using h _ hmem, fun hmem => by simpa using h _ hmem⟩
  · rintro ⟨hroot, hup⟩ c hc
    simp only [Bool.and_eq_true, bne_iff_ne]
    exact ⟨fun heq => hroot (heq ▸ hc), fun heq => hup (heq ▸ hc)⟩

/-- A line is what is left without the slashes at its end, and these. -/
theorem exists_slashes (line : List Char) :
    ∃ slashes, line = line.rdropWhile (· == '/') ++ slashes ∧ ∀ c ∈ slashes, c = '/' := by
  refine ⟨(line.reverse.takeWhile (· == '/')).reverse, ?_, fun c hc => ?_⟩
  · rw [List.rdropWhile, ← List.reverse_append, List.takeWhile_append_dropWhile, List.reverse_reverse]
  · have hslash := List.mem_takeWhile_imp (List.mem_reverse.mp hc)
    exact eq_of_beq hslash

/-- A line that leads outside says something. -/
theorem ne_nil_of_outside {line : List Char} (h : Outside line) : line ≠ [] := by
  rintro rfl
  revert h
  unfold Outside
  decide

/-- **A line names the folder of that path, and `.` the root of the project.** -/
theorem components_folderOf {line : List Char} (h : ∃ c ∈ line, c ≠ '/') :
    (folderOf line).components =
      if line = ['.'] then [] else (⟨String.ofList line⟩ : Path).components := by
  unfold folderOf
  split
  · decide
  · obtain ⟨slashes, hline, hslashes⟩ := exists_slashes line
    have hbody : line.rdropWhile (· == '/') ≠ [] := by
      rw [ne_eq, List.rdropWhile_eq_nil_iff]
      simpa using h
    have hcomponents := componentsOf_append_slashes hbody hslashes
    rw [← hline] at hcomponents
    simp only [components, String.toList_ofList]
    exact hcomponents.symm

/-- A line of nothing but slashes names the root of the project. -/
theorem folderOf_slashes {line : List Char} (h : ∀ c ∈ line, c = '/') : folderOf line = ⟨""⟩ := by
  have hdot : line ≠ ['.'] := by
    rintro rfl
    exact absurd (h '.' List.mem_cons_self) (by decide)
  have hbody : line.rdropWhile (· == '/') = [] := by
    rw [List.rdropWhile_eq_nil_iff]
    simpa using h
  rw [folderOf, if_neg hdot]
  exact congrArg (fun body => (⟨String.ofList body⟩ : Path)) hbody

/-- **The folder of a line lies below the root of the project unless the line leads outside.** -/
theorem isBelow_folderOf (line : List Char) : isBelow (folderOf line) = true ↔ ¬ Outside line := by
  by_cases hmore : ∃ c ∈ line, c ≠ '/'
  · rw [isBelow_iff, components_folderOf hmore, Outside, and_iff_left hmore, isAbsolute_iff, not_or]
    split
    · rename_i hdot
      subst hdot
      decide
    · exact Iff.rfl
  · have hslashes : ∀ c ∈ line, c = '/' := by simpa using hmore
    have hup : .up ∉ (⟨String.ofList line⟩ : Path).components := by
      rw [components, String.toList_ofList]
      exact up_not_mem_componentsOf_slashes hslashes
    rw [folderOf_slashes hslashes, Outside]
    exact iff_of_true (by decide) fun hout => hout.elim (fun h => hmore h.2) hup

/-! ### All lines -/

/-- The folders found so far, and one that is listed next. -/
def insertNew (found : List Path) (folder : Path) : List Path :=
  if found.any (·.same folder) then found else found ++ [folder]

/-- A line that names a folder inside adds it, unless the line is empty or the folder is known. -/
theorem ofLines_cons_of_inside {line : List Char} (h : ¬ Outside (content line)) (found : List Path)
    (n : Nat) (more : List (List Char × Nat)) :
    ofLines found ((line, n) :: more) =
      ofLines (if (content line).isEmpty then found else insertNew found (folderOf (content line))) more := by
  rw [ofLines]
  dsimp only
  split
  · rfl
  · rw [if_pos ((isBelow_folderOf _).mpr h)]
    rfl

/-- A line that leaves the project is the answer, with its number. -/
theorem ofLines_cons_of_outside {line : List Char} (h : Outside (content line)) (found : List Path)
    (n : Nat) (more : List (List Char × Nat)) :
    ofLines found ((line, n) :: more) = .error ⟨n, String.ofList (content line)⟩ := by
  have hnonempty : (content line).isEmpty = false := by simpa using ne_nil_of_outside h
  rw [ofLines]
  dsimp only
  rw [hnonempty, if_neg Bool.false_ne_true, if_neg fun hbelow => (isBelow_folderOf _).mp hbelow h]

/-- Folders are kept as they come, each at its first place. -/
theorem loop_insertNew (found : List Path) (folder : Path) (folders : List Path) :
    List.eraseDupsBy.loop Path.same (folder :: folders) found.reverse =
      List.eraseDupsBy.loop Path.same folders (insertNew found folder).reverse := by
  have hany : found.reverse.any (folder.same ·) = found.any (·.same folder) := by
    rw [List.any_reverse]
    exact congrArg found.any (funext fun p => BEq.comm)
  rw [List.eraseDupsBy.loop, insertNew, hany]
  cases found.any (·.same folder) <;> simp

/-- Lines that all lead inside give their folders. -/
theorem ofLines_of_inside {lines : List (List Char)} (h : ∀ line ∈ lines, ¬ Outside (content line))
    (found : List Path) (n : Nat) :
    ofLines found (lines.zipIdx n) = .ok (List.eraseDupsBy.loop Path.same
      (((lines.map content).filter fun line => !line.isEmpty).map folderOf) found.reverse) := by
  induction lines generalizing found n with
  | nil => simp [ofLines, List.eraseDupsBy.loop]
  | cons line lines ih =>
    rw [List.forall_mem_cons] at h
    rw [List.zipIdx_cons, ofLines_cons_of_inside h.1, ih h.2, List.map_cons]
    cases hempty : (content line).isEmpty with
    | true => rw [if_pos rfl, List.filter_cons_of_neg (by simp [hempty])]
    | false =>
      rw [if_neg Bool.false_ne_true, List.filter_cons_of_pos (by simp [hempty]), List.map_cons,
        loop_insertNew]

/-- The first line that leads outside is the mistake. -/
theorem ofLines_of_outside {before after : List (List Char)} {line : List Char}
    (hbefore : ∀ l ∈ before, ¬ Outside (content l)) (hline : Outside (content line))
    (found : List Path) (n : Nat) :
    ofLines found ((before ++ line :: after).zipIdx n) =
      .error ⟨n + before.length, String.ofList (content line)⟩ := by
  induction before generalizing found n with
  | nil =>
    rw [List.nil_append, List.zipIdx_cons, ofLines_cons_of_outside hline]
    rfl
  | cons l before ih =>
    rw [List.forall_mem_cons] at hbefore
    rw [List.cons_append, List.zipIdx_cons, ofLines_cons_of_inside hbefore.1, ih hbefore.2,
      List.length_cons, Nat.add_assoc, Nat.add_comm 1]

/-- A text all of whose lines stay inside is read as the folders it names. -/
theorem ofText_of_inside {text : String} (h : ∀ line ∈ contents text, ¬ Outside line) :
    ofText text =
      .ok (if named (contents text) = [] then [⟨""⟩] else named (contents text)) := by
  have hlines : ofLines [] ((text.toList.splitOn '\n').zipIdx 1) = .ok (named (contents text)) :=
    ofLines_of_inside (fun line hline => h _ (List.mem_map_of_mem hline)) [] 1
  rw [ofText, lineChars_eq, hlines]
  cases named (contents text) <;> rfl

/-- The first line that leaves the project is the one reported, by its number and its text. -/
theorem ofText_of_outside {text : String} {before after : List (List Char)} {line : List Char}
    (hcontents : contents text = before ++ line :: after) (hbefore : ∀ l ∈ before, ¬ Outside l)
    (hline : Outside line) : ofText text = .error ⟨before.length + 1, String.ofList line⟩ := by
  obtain ⟨raws, rest, hraw, rfl, hrest⟩ := List.map_eq_append_iff.mp hcontents
  obtain ⟨raw, more, rfl, rfl, -⟩ := List.map_eq_cons_iff.mp hrest
  have hlines : ofLines [] ((raws ++ raw :: more).zipIdx 1) = _ :=
    ofLines_of_outside (fun l hl => hbefore _ (List.mem_map_of_mem hl)) hline [] 1
  rw [ofText, lineChars_eq, hraw, hlines, List.length_map, Nat.add_comm]

/-- If a line leads outside, some line is the first to do so. -/
theorem exists_first_outside {lines : List (List Char)} (h : ∃ line ∈ lines, Outside line) :
    ∃ before line after, lines = before ++ line :: after ∧ (∀ l ∈ before, ¬ Outside l) ∧
      Outside line := by
  classical
  have hfind : (lines.find? fun line => decide (Outside line)).isSome = true := by
    rw [List.find?_isSome]
    simpa using h
  obtain ⟨line, hfirst⟩ := Option.isSome_iff_exists.mp hfind
  obtain ⟨hline, before, after, hlines, hbefore⟩ := List.find?_eq_some_iff_append.mp hfirst
  exact ⟨before, line, after, hlines, by simpa using hbefore, by simpa using hline⟩

/-! ### Where the folders lie -/

/-- What is left when repetitions are dropped was there before. -/
theorem mem_loop {folder : Path} {folders found : List Path}
    (h : folder ∈ List.eraseDupsBy.loop Path.same folders found) : folder ∈ folders ∨ folder ∈ found := by
  induction folders generalizing found with
  | nil => exact .inr (List.mem_reverse.mp h)
  | cons f folders ih =>
    rw [List.eraseDupsBy.loop] at h
    split at h
    · exact (ih h).imp_left (List.mem_cons_of_mem f)
    · rcases ih h with hmem | hmem
      · exact .inl (List.mem_cons_of_mem f hmem)
      · exact (List.mem_cons.mp hmem).imp_left fun heq => List.mem_cons.mpr (.inl heq)

/-- The folders read from lines that stay inside are below the root. -/
theorem isBelow_of_mem_named {lines : List (List Char)} (h : ∀ line ∈ lines, ¬ Outside line)
    {folder : Path} (hfolder : folder ∈ named lines) : isBelow folder = true := by
  have hmem := (mem_loop hfolder).resolve_right List.not_mem_nil
  obtain ⟨line, hline, rfl⟩ := List.mem_map.mp hmem
  exact (isBelow_folderOf line).mpr (h line (List.mem_of_mem_filter hline))

/-- **A folder below the root of a project lies there wherever the project is.** -/
theorem startsWith_absoluteFolder {folder : Path} (h : isBelow folder = true) (root : Path) :
    (ProjectConfig.absoluteFolder root folder).startsWith root = true := by
  unfold ProjectConfig.absoluteFolder
  split
  · exact List.isPrefixOf_iff_prefix.mpr (List.prefix_refl _)
  · have hrelative := mt isAbsolute_iff.mp (isBelow_iff.mp h).1
    exact startsWith_join root (Bool.eq_false_iff.mpr hrelative)

/-! ### The list -/

/-- **A list of source folders is refused exactly if a line leads outside, and the first such line is told.
Otherwise it gives the folders that its lines name, in order and each once, or the root of the project if
there are none; and wherever the project is, each of them is its root or lies below it.** -/
theorem ofText_exact (text : String) :
    ((∃ bad, ofText text = .error bad) ↔ ∃ line ∈ contents text, Outside line) ∧
    (∀ bad, ofText text = .error bad → ∃ before line after,
      contents text = before ++ line :: after ∧ (∀ l ∈ before, ¬ Outside l) ∧ Outside line ∧
      bad = ⟨before.length + 1, String.ofList line⟩) ∧
    ∀ folders, ofText text = .ok folders → folders ≠ [] ∧
      folders = (if named (contents text) = [] then [⟨""⟩] else named (contents text)) ∧
      ∀ root : Path, ∀ folder ∈ folders,
        (ProjectConfig.absoluteFolder root folder).startsWith root = true := by
  by_cases hout : ∃ line ∈ contents text, Outside line
  · obtain ⟨before, line, after, hlines, hbefore, hline⟩ := exists_first_outside hout
    have hrefused := ofText_of_outside hlines hbefore hline
    refine ⟨iff_of_true ⟨_, hrefused⟩ hout, fun bad hbad => ?_, fun folders hfolders => ?_⟩
    · rw [hrefused] at hbad
      exact ⟨before, line, after, hlines, hbefore, hline, (Except.error.inj hbad).symm⟩
    · rw [hrefused] at hfolders
      cases hfolders
  · have hinside : ∀ line ∈ contents text, ¬ Outside line := fun line hline h => hout ⟨line, hline, h⟩
    have haccepted := ofText_of_inside hinside
    rw [haccepted]
    refine ⟨iff_of_false (fun ⟨_, hbad⟩ => nomatch hbad) hout, fun _ hbad => (nomatch hbad),
      fun folders hfolders => ?_⟩
    obtain rfl := Except.ok.inj hfolders
    refine ⟨?_, rfl, fun root folder hfolder => startsWith_absoluteFolder ?_ root⟩
    · split
      · exact List.cons_ne_nil _ _
      · assumption
    · split at hfolder
      · rw [List.mem_singleton.mp hfolder]
        decide
      · exact isBelow_of_mem_named hinside hfolder

/-- A line that names the root of all paths is taken for the root of the project, although it is absolute. -/
theorem slash_accepted :
    ofText "/" = .ok [⟨""⟩] ∧ contents "/" = [['/']] ∧ (⟨String.ofList ['/']⟩ : Path).isAbsolute = true :=
  ⟨rfl, by decide +kernel, by decide⟩

end Folders

end NedWorkspace
