/-
# What a registry tells of paths

Owners, source folders and expected packages depend on the projects alone, not on their tables, and on
the components of a path alone, not on how it is written. A file that counts as a NED file lies below a
source folder of some project (`Registry.exists_folder_of_isNedFile`), so it is found by listing all
source folders.
-/

import NedWorkspace.Project.Registry
import NedWorkspace.Proofs.Map.Laws
import NedWorkspace.Proofs.Path

namespace NedWorkspace

/-- The greatest of a list is one of the list. -/
theorem mem_of_lastMax {α : Type} {measure : α → Nat} {as : List α} {a : α}
    (h : lastMax measure as = some a) : a ∈ as := by
  induction as with
  | nil => exact absurd h (by simp [lastMax])
  | cons b bs ih =>
    rw [lastMax] at h
    split at h
    · rename_i c hc
      split at h
      · obtain rfl := Option.some.inj h
        exact List.mem_cons_of_mem b (ih hc)
      · obtain rfl := Option.some.inj h
        exact List.mem_cons_self
    · obtain rfl := Option.some.inj h
      exact List.mem_cons_self

namespace Registry

/-- A project sees itself. -/
@[simp] theorem sees_self (r : Registry) (project : String) : r.sees project project = true := by
  simp [sees]

section Projects

variable {r r' : Registry} (h : r.projects = r'.projects)
include h

/-- Which project a path belongs to depends on where the projects are, and on nothing else. -/
theorem owner?_congr (path : Path) : r.owner? path = r'.owner? path := by
  unfold owner?
  rw [h]

/-- What a project sees depends on its references, and on nothing else. -/
theorem sees_congr (project other : String) : r.sees project other = r'.sees project other := by
  unfold sees project?
  rw [h]

/-- The files that count for a project depend on the projects that it sees and on whose the files are. -/
theorem contributions_congr (index : DefinitionIndex) (files : List (FileId × String))
    (project : String) : r.contributions index files project = r'.contributions index files project := by
  unfold contributions
  simp only [sees_congr h]

/-- The folder that a path is below depends on the folders of the projects only. -/
theorem folderFor?_congr (path : Path) : r.folderFor? path = r'.folderFor? path := by
  unfold folderFor? project?
  rw [owner?_congr h, h]

/-- Whether a path is a source depends on the folders and on what they exclude. -/
theorem isNedFile_congr (path : Path) : r.isNedFile path = r'.isNedFile path := by
  unfold isNedFile
  rw [folderFor?_congr h]

/-- The package that is expected at a path depends on the folders and on the packages declared in them. -/
theorem expectedPackage?_congr (path : Path) {packageAt packageAt' : Path → Option String}
    (hpackage : packageAt = packageAt') :
    r.expectedPackage? path packageAt = r'.expectedPackage? path packageAt' := by
  unfold expectedPackage?
  rw [folderFor?_congr h, hpackage]

end Projects

/-- Whether a path is that of a NED file is a matter of its components. -/
theorem isNedFile_of_compare (r : Registry) {p q : Path} (h : compare p q = .eq) :
    r.isNedFile p = r.isNedFile q := by
  have hcomponents := Path.compare_eq_iff.mp h
  have hstarts : ∀ project : Project, p.startsWith project.config.root =
      q.startsWith project.config.root := fun _ => Path.startsWith_congr hcomponents _
  have howner : r.owner? p = r.owner? q := by
    unfold owner?
    rw [List.filter_congr fun project _ => hstarts project]
  unfold isNedFile folderFor?
  rw [Path.extension?_congr hcomponents, Path.parent?_congr hcomponents, howner]

/-- **A NED file lies below a source folder.** -/
theorem exists_folder_of_isNedFile {r : Registry} {path : Path} (h : r.isNedFile path = true) :
    ∃ folder ∈ r.projects.values.flatMap Project.folders, path.startsWith folder = true := by
  obtain ⟨folder, hfolder⟩ := Option.isSome_iff_exists.mp (Bool.and_eq_true_iff.mp h).2
  unfold folderFor? at hfolder
  split at hfolder
  · rename_i project parent hproject hparent
    obtain ⟨name, _, hget⟩ := Option.bind_eq_some_iff.mp hproject
    obtain ⟨hmem, hstarts⟩ := List.mem_filter.mp (mem_of_lastMax hfolder)
    have hvalue : project ∈ r.projects.values :=
      List.mem_map_of_mem (f := Prod.snd) (OrderedMap.mem_of_get? hget)
    exact ⟨folder, List.mem_flatMap.mpr ⟨project, hvalue, hmem⟩,
      Path.startsWith_of_parent? hparent hstarts⟩
  · exact absurd hfolder (by simp)

end Registry

end NedWorkspace
