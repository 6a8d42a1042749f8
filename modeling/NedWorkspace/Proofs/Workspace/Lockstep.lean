/-
# Two workspaces in lockstep

Which files an operation loads, forgets or leaves alone, and what it answers, depends on little: on the
projects, on which paths are loaded, under which numbers and with how many editors. Two workspaces that
agree in this and are given the same operation do the same. So a relation between states that includes
this agreement (`Lockstep`) is kept by an operation as soon as it is kept by the few things that
operations do to files: `Lockstep.carryOut`.

An operation of an editor needs more: that the relation is kept when an editor joins or leaves the file
(`EditsAt`) or gives it a text (`WritesAt`). A relation of a state with itself is a property of states,
so this is also how properties are carried through operations.
-/

import NedWorkspace.Proofs.Workspace.Files

namespace NedWorkspace

open State Engine

/-- What operations go by when they deal with a loaded file. -/
def SourceFile.face (f : SourceFile) : Nat × Nat :=
  (f.number, f.editors)

/-- A relation between states in lockstep. -/
structure Lockstep (J : State → State → Prop) : Prop where
  /-- Only files and projects count. -/
  congr : ∀ {st st' s s' : State}, J st st' → s.store = st.store →
    s.registry.projects = st.registry.projects → s'.store = st'.store →
    s'.registry.projects = st'.registry.projects → J s s'
  projects : ∀ {st st' : State}, J st st' → st.registry.projects = st'.registry.projects
  next : ∀ {st st' : State}, J st st' → st.store.nextNumber = st'.store.nextNumber
  files : ∀ {st st' : State}, J st st' → ∀ path,
    (st.store.at? path).map SourceFile.face = (st'.store.at? path).map SourceFile.face
  /-- A text is applied where no editor has the file. -/
  applyParse : ∀ {st st' : State}, J st st' → ∀ {path}, st.hasEditor path = false → ∀ text,
    J (st.applyParse path text (Parse.ofText text)).2 (st'.applyParse path text (Parse.ofText text)).2
  forget : ∀ {st st' : State}, J st st' → ∀ path, J (st.forget path).2 (st'.forget path).2
  reconfigure : ∀ {st st' : State}, J st st' → ∀ configs,
    J (st.reconfigure configs) (st'.reconfigure configs)

/-- Editors may join and leave the file at a path. -/
def EditsAt (J : State → State → Prop) (path : Path) : Prop :=
  ∀ ⦃st st' : State⦄ ⦃f f' : SourceFile⦄, J st st' → st.store.at? path = some f →
    st'.store.at? path = some f' → ∀ editors,
      J { st with store := st.store.update { f with editors } }
        { st' with store := st'.store.update { f' with editors } }

/-- The file at a path may be given any text, also while it has an editor. -/
def WritesAt (J : State → State → Prop) (path : Path) : Prop :=
  ∀ ⦃st st' : State⦄, J st st' → ∀ text,
    J (st.applyParse path text (Parse.ofText text)).2 (st'.applyParse path text (Parse.ofText text)).2

namespace Plain

/-- An operation that answers alike in both states and keeps their relation. -/
def Alike {α : Type} (J : State → State → Prop) (x : Plain α) : Prop :=
  ∀ s st st', J st st' → (x s st).1 = (x s st').1 ∧ J (x s st).2 (x s st').2

/-- An operation that touches neither files nor projects. -/
def Still {α : Type} (x : Plain α) : Prop :=
  ∀ s st, (x s st).2.store = st.store ∧ (x s st).2.registry.projects = st.registry.projects

variable {J : State → State → Prop} {α β : Type}

namespace Alike

theorem pure (a : α) : Alike J (Pure.pure a) :=
  fun _ _ _ h => ⟨rfl, h⟩

/-- Operations in a row are alike if each of them is. -/
theorem bind {x : Plain α} {f : α → Plain β} (hx : Alike J x) (hf : ∀ a, Alike J (f a)) :
    Alike J (x >>= f) := by
  intro s st st' h
  obtain ⟨hanswer, hstates⟩ := hx s st st' h
  change (f (x s st).1 s (x s st).2).1 = (f (x s st').1 s (x s st').2).1 ∧
    J (f (x s st).1 s (x s st).2).2 (f (x s st').1 s (x s st').2).2
  rw [hanswer]
  exact hf _ s _ _ hstates

theorem disk : Alike J (Engine.disk : Plain Disk) :=
  fun _ _ _ h => ⟨rfl, h⟩

theorem provider : Alike J (Engine.provider : Plain Provider) :=
  fun _ _ _ h => ⟨rfl, h⟩

/-- What is done under the lock is alike if it keeps states in step. -/
theorem locked {f : State → α × State}
    (h : ∀ st st', J st st' → (f st).1 = (f st').1 ∧ J (f st).2 (f st').2) :
    Alike J (Engine.locked f : Plain α) :=
  fun _ st st' hJ => h st st' hJ

/-- What is seen alike on both sides is no difference. -/
theorem view {f : State → α} (h : ∀ st st', J st st' → f st = f st') :
    Alike J (Engine.view f : Plain α) :=
  locked fun st st' hJ => ⟨h st st' hJ, hJ⟩

theorem change {f : State → State} (h : ∀ st st', J st st' → J (f st) (f st')) :
    Alike J (Engine.change f : Plain Unit) :=
  locked fun st st' hJ => ⟨rfl, h st st' hJ⟩

/-- What is done at the end keeps states in step, panic or not. -/
theorem closing {f : State → State} {x : Plain α} (h : ∀ st st', J st st' → J (f st) (f st'))
    (hx : Alike J x) : Alike J (Engine.closing f x) := by
  intro s st st' hJ
  obtain ⟨hanswer, hstates⟩ := hx s st st' hJ
  exact ⟨hanswer, h _ _ hstates⟩

end Alike

namespace Still

theorem pure (a : α) : Still (Pure.pure a) :=
  fun _ _ => ⟨rfl, rfl⟩

theorem bind {x : Plain α} {f : α → Plain β} (hx : Still x) (hf : ∀ a, Still (f a)) :
    Still (x >>= f) := by
  intro s st
  obtain ⟨hstore, hprojects⟩ := hx s st
  obtain ⟨hstore', hprojects'⟩ := hf (x s st).1 s (x s st).2
  exact ⟨hstore'.trans hstore, hprojects'.trans hprojects⟩

theorem locked {f : State → α × State} (h : ∀ st, (f st).2.store = st.store ∧
    (f st).2.registry.projects = st.registry.projects) : Still (Engine.locked f : Plain α) :=
  fun _ st => h st

theorem view (f : State → α) : Still (Engine.view f : Plain α) :=
  locked fun _ => ⟨rfl, rfl⟩

theorem viewFresh (f : State → α) : Still (Engine.viewFresh f : Plain α) :=
  locked fun st => ⟨store_rehash st, registry_rehash st⟩

theorem ask (q : Model → Query α) : Still (Engine.ask q : Plain α) :=
  locked fun st => ⟨store_rehash st, registry_rehash st⟩

theorem change {f : State → State} (h : ∀ st, (f st).store = st.store ∧
    (f st).registry.projects = st.registry.projects) : Still (Engine.change f : Plain Unit) :=
  locked h

theorem bracketed {x : Plain α} (hx : Still x) : Still (Engine.bracketed x) :=
  bind (change fun _ => ⟨rfl, rfl⟩) fun _ s st => hx s st

theorem publish (id : FileId) (found : List Diagnostic) (st : State) :
    (st.publish id found).store = st.store ∧
      (st.publish id found).registry.projects = st.registry.projects := by
  have hemit : ∀ (st' : State) (r : Bool × DiagnosticStore),
      ({ st' with diagnostics := r.2 }.emitIf r.1 (.diagnosticsChanged id)).store = st'.store ∧
      ({ st' with diagnostics := r.2 }.emitIf r.1 (.diagnosticsChanged id)).registry =
        st'.registry := by
    intro st' r
    unfold State.emitIf
    split
    · exact ⟨rfl, rfl⟩
    · exact ⟨rfl, rfl⟩
  have hfresh : ∀ {s : State}, s.store = st.rehash.store ∧ s.registry = st.rehash.registry →
      s.store = st.store ∧ s.registry.projects = st.registry.projects :=
    fun h => ⟨h.1.trans (store_rehash st), (congrArg _ h.2).trans (registry_rehash st)⟩
  unfold State.publish
  dsimp only
  split
  · exact hfresh ⟨rfl, rfl⟩
  · split
    · exact hfresh (hemit _ _)
    · exact hfresh (hemit _ _)

/-- Publishing touches neither files nor projects. -/
theorem publishEach (duplicates : List Diagnostic) (ids : List FileId) :
    Still (Engine.publishEach duplicates ids : Plain Unit) := by
  induction ids with
  | nil => exact pure _
  | cons id ids ih => exact bind (change (publish id _)) fun _ => ih

/-- Validation touches neither files nor projects. -/
theorem validate : Still (Engine.validate : Plain Unit) :=
  bracketed (bind (locked fun st => ⟨store_rehash st, registry_rehash st⟩) fun _ => publishEach _ _)

theorem contextOf (place : Place) : Still (Engine.contextOf place : Plain (Option LookupContext)) := by
  cases place with
  | file id => exact pure _
  | type qname project => exact bind (viewFresh _) fun _ => pure _
  | path path => exact view _
  | nowhere => exact pure _

theorem inPlace (place : Place) {f : LookupContext → Plain Answer} (h : ∀ c, Still (f c)) :
    Still (Engine.inPlace place f) := by
  refine bind (contextOf place) fun context => ?_
  cases context with
  | none => exact pure _
  | some context => exact h context

theorem onType (qname project : String) {f : Definition → Plain Answer} (h : ∀ d, Still (f d)) :
    Still (Engine.onType qname project f) := by
  refine bind (viewFresh _) fun d => ?_
  cases d with
  | none => exact pure _
  | some d => exact h d

end Still

end Plain

open Plain

namespace Lockstep

variable {J : State → State → Prop} (hJ : Lockstep J)
include hJ

/-! ### What states in lockstep agree in -/

section Agreement

variable {st st' : State} (h : J st st')
include h

/-- A path is known on both sides or on neither. -/
theorem isNone_eq (path : Path) : (st.store.at? path).isNone = (st'.store.at? path).isNone := by
  have hfiles := congrArg Option.isNone (hJ.files h path)
  simpa using hfiles

/-- A path has the same file on both sides. -/
theorem id_eq (path : Path) :
    (st.store.at? path).map SourceFile.id = (st'.store.at? path).map SourceFile.id := by
  have hfiles := congrArg (Option.map fun face : Nat × Nat => FileId.source face.1) (hJ.files h path)
  rw [Option.map_map, Option.map_map] at hfiles
  exact hfiles

/-- A path has an editor on both sides or on neither. -/
theorem hasEditor_eq (path : Path) : st.hasEditor path = st'.hasEditor path := by
  have hfiles := congrArg (fun face : Option (Nat × Nat) => face.any fun x => decide (0 < x.2))
    (hJ.files h path)
  rw [Option.any_map, Option.any_map] at hfiles
  exact hfiles

theorem isNedFile_eq (path : Path) : st.registry.isNedFile path = st'.registry.isNedFile path :=
  Registry.isNedFile_congr (hJ.projects h) path

/-- A text is applied to the same file. -/
theorem applyParse_fst (path : Path) (text : String) (parse : Parse) :
    (st.applyParse path text parse).1 = (st'.applyParse path text parse).1 := by
  rw [id_applyParse, id_applyParse, hJ.id_eq h, hJ.next h]

theorem emit (e : Event) : J (st.emit e) (st'.emit e) :=
  hJ.congr h rfl rfl rfl rfl

theorem rehash : J st.rehash st'.rehash :=
  hJ.congr h (store_rehash st) (registry_rehash st) (store_rehash st') (registry_rehash st')

/-- Operations that touch neither files nor projects keep the relation. -/
theorem still {α : Type} {x : Plain α} (hx : Still x) (s : Surroundings) :
    J (x s st).2 (x s st').2 :=
  hJ.congr h (hx s st).1 (hx s st).2 (hx s st').1 (hx s st').2

end Agreement

/-! ### Operations -/

theorem alike_rehash : Alike J (Engine.rehash : Plain Unit) :=
  .change fun _ _ h => hJ.rehash h

/-- Brackets keep states in step. -/
theorem alike_bracketed {α : Type} {x : Plain α} (hx : Alike J x) : Alike J (bracketed x) :=
  .bind (.change fun _ _ h => hJ.emit h _) fun _ => .closing (fun _ _ h => hJ.emit h _) hx

/-- A text read from the disk is stored on both sides. -/
theorem alike_storeLoaded (path : Path) (text : String) :
    Alike J (storeLoaded path text : Plain (Except WorkspaceError FileId)) := by
  refine .locked fun st st' h => ?_
  have hsame := hJ.hasEditor_eq h path
  unfold State.hasEditor at hsame
  dsimp only
  rw [← hsame]
  split
  · exact ⟨rfl, h⟩
  · rename_i hedited
    exact ⟨congrArg Except.ok (hJ.applyParse_fst h path text _),
      hJ.applyParse h (Bool.eq_false_of_not_eq_true hedited) text⟩

/-- A file is read on both sides, or refused on both. -/
theorem alike_loadFromDisk (path : Path) :
    Alike J (loadFromDisk path : Plain (Except WorkspaceError FileId)) := by
  refine .bind (.view fun _ _ h => hJ.hasEditor_eq h path) fun edited => ?_
  split
  · exact .pure _
  · refine .bind .disk fun d => ?_
    cases d.textOf path with
    | error e => exact .pure _
    | ok text => exact hJ.alike_storeLoaded path text

theorem alike_load (path : Path) : Alike J (load path : Plain (Except WorkspaceError FileId)) := by
  refine .bind (hJ.alike_loadFromDisk path) fun loaded => ?_
  cases loaded with
  | error e => exact .pure _
  | ok id => exact .bind hJ.alike_rehash fun _ => .pure _

/-- A file is forgotten on both sides. -/
theorem alike_forget (path : Path) : Alike J (Engine.forget path : Plain Bool) := by
  refine .locked fun st st' h => ⟨?_, hJ.forget h path⟩
  have hforget : ∀ s : State, (s.forget path).1 = !(s.store.at? path).isNone := by
    intro s
    unfold State.forget
    cases s.store.at? path with
    | none => rfl
    | some f => rfl
  rw [hforget, hforget, hJ.isNone_eq h]

/-- Projects are found anew on both sides. -/
theorem alike_reconfigure : Alike J (Engine.reconfigure : Plain (Except WorkspaceError Unit)) := by
  refine .bind .provider fun p => .bind .disk fun d => ?_
  cases p.projects d with
  | error e => exact .pure _
  | ok configs => exact .bind (.change fun _ _ h => hJ.reconfigure h configs) fun _ => .pure _

theorem alike_loadSilently (path : Path) (text : String) :
    Alike J (loadSilently path text : Plain Bool) := by
  refine .locked fun st st' h => ?_
  have hsame := hJ.isNone_eq h path
  cases hat : st.store.at? path with
  | none =>
    rw [hat] at hsame
    have hat' : st'.store.at? path = none := by simpa using hsame.symm
    rw [hat']
    exact ⟨rfl, hJ.congr (hJ.applyParse h (hasEditor_of_at?_none hat) text) rfl rfl rfl rfl⟩
  | some f =>
    rw [hat] at hsame
    obtain ⟨f', hat'⟩ : ∃ f', st'.store.at? path = some f' :=
      Option.isSome_iff_exists.mp (by simpa using hsame.symm)
    rw [hat']
    exact ⟨rfl, h⟩

/-- The same files are read on both sides, with the same errors. -/
theorem alike_loadEach (read : List (Path × Except WorkspaceError String)) :
    Alike J (loadEach read : Plain (Nat × List WorkspaceError)) := by
  induction read with
  | nil => exact .pure _
  | cons r more ih =>
    obtain ⟨path, text⟩ := r
    cases text with
    | error e => exact .bind ih fun _ => .pure _
    | ok text =>
      exact .bind (hJ.alike_loadSilently path text) fun _ => .bind ih fun _ => .pure _

/-- The same files are missing on both sides. -/
theorem alike_loadMissing : Alike J (loadMissing : Plain (Except WorkspaceError Nat)) := by
  refine .bind (.view fun st st' h => ?_) fun folders => .bind .disk fun d => ?_
  · rw [hJ.projects h]
  · dsimp only
    refine .bind (.view fun st st' h => ?_) fun missing => ?_
    · refine List.filter_congr fun p _ => ?_
      rw [hJ.isNone_eq h, hJ.isNedFile_eq h]
    · split
      · exact .pure _
      · exact .bind .disk fun d => .closing (fun _ _ h => hJ.emit h _)
          (.bind (hJ.alike_loadEach _) fun _ => .bind hJ.alike_rehash fun _ => .pure _)

/-- A change of the disk has the same effect on both sides. -/
theorem alike_applyChange (c : DiskChange) :
    Alike J (applyChange c : Plain (List WorkspaceError)) := by
  have htake : ∀ path, Alike J (applyChange (.changed path) : Plain (List WorkspaceError)) := by
    intro path
    refine .bind (.view fun _ _ h => hJ.isNedFile_eq h path) fun isNed => ?_
    split
    · refine .bind (.view fun _ _ h => hJ.hasEditor_eq h path) fun edited => ?_
      split
      · exact .pure _
      · refine .bind (hJ.alike_loadFromDisk path) fun loaded => ?_
        split
        · exact .pure _
        · exact .pure _
        · exact .pure _
    · exact .pure _
  cases c with
  | added path => exact htake path
  | changed path => exact htake path
  | removed path => exact .bind (hJ.alike_forget path) fun _ => .pure _
  | projects => exact .pure _

/-- Changes of the disk have the same effect on both sides, one after the other. -/
theorem alike_applyEach (cs : List DiskChange) :
    Alike J (applyEach cs : Plain (List WorkspaceError)) := by
  induction cs with
  | nil => exact .pure _
  | cons c cs ih => exact .bind (hJ.alike_applyChange c) fun _ => .bind ih fun _ => .pure _

theorem alike_reconfigureAndLoad :
    Alike J (reconfigureAndLoad : Plain (List WorkspaceError)) := by
  refine .bind hJ.alike_reconfigure fun configured => ?_
  cases configured with
  | error e => exact .pure _
  | ok _ =>
    refine .bind hJ.alike_loadMissing fun loaded => ?_
    cases loaded with
    | error e => exact .pure _
    | ok n => exact .pure _

/-- A batch of changes has the same effect on both sides. -/
theorem alike_applyChanges (changes : List DiskChange) :
    Alike J (applyChanges changes : Plain (Except WorkspaceError Unit)) := by
  unfold applyChanges
  split
  · exact .pure _
  · refine .bind (hJ.alike_bracketed ?_) fun _ => .pure _
    refine .bind (hJ.alike_applyEach changes) fun unread => ?_
    dsimp only
    split
    · exact .bind hJ.alike_reconfigureAndLoad fun _ => .bind hJ.alike_rehash fun _ => .pure _
    · exact .bind (.pure _) fun _ => .bind hJ.alike_rehash fun _ => .pure _

/-! ### Operations of editors -/

theorem addEditor {path : Path} (hedits : EditsAt J path) {st st' : State} (h : J st st') :
    J (Engine.addEditor st path) (Engine.addEditor st' path) := by
  have hfiles := hJ.files h path
  unfold Engine.addEditor
  cases hat : st.store.at? path with
  | none =>
    rw [hat] at hfiles
    rw [Option.map_eq_none_iff.mp hfiles.symm]
    exact h
  | some f =>
    rw [hat] at hfiles
    obtain ⟨f', hat', hface⟩ := Option.map_eq_some_iff.mp hfiles.symm
    have heditors : f'.editors = f.editors := congrArg Prod.snd hface
    rw [hat']
    dsimp only
    rw [heditors]
    exact hedits h hat hat' _

/-- An editor that may come does so on both sides. -/
theorem alike_connect {path : Path} (hedits : EditsAt J path) :
    Alike J (connect path : Plain (Except WorkspaceError FileId)) := by
  refine .bind (.locked fun st st' h => ⟨hJ.id_eq h path, hJ.addEditor hedits h⟩) fun known => ?_
  cases known with
  | some id => exact .pure _
  | none =>
    refine .bind (.view fun _ _ h => hJ.isNedFile_eq h path) fun isNed => ?_
    dsimp only
    split
    · refine .bind .disk fun d => ?_
      cases d.textOf path with
      | error e => exact .pure _
      | ok text =>
        refine .bind (.locked fun st st' h => ?_) fun id => .pure _
        have hid := hJ.id_eq h path
        cases hat : st.store.at? path with
        | none =>
          rw [hat] at hid
          rw [Option.map_eq_none_iff.mp hid.symm]
          exact ⟨hJ.applyParse_fst h path text _, hJ.rehash (hJ.addEditor hedits
            (hJ.applyParse h (hasEditor_of_at?_none hat) text))⟩
        | some f =>
          rw [hat] at hid
          obtain ⟨f', hat', hff⟩ := Option.map_eq_some_iff.mp hid.symm
          rw [hat']
          exact ⟨hff.symm, hJ.rehash (hJ.addEditor hedits h)⟩
    · exact .pure _

/-- An editor that may go does so on both sides. -/
theorem alike_dropEditor {path : Path} (hedits : EditsAt J path) :
    Alike J (dropEditor path : Plain (Except WorkspaceError Bool)) := by
  refine .locked fun st st' h => ?_
  have hfiles := hJ.files h path
  cases hat : st.store.at? path with
  | none =>
    rw [hat] at hfiles
    rw [Option.map_eq_none_iff.mp hfiles.symm]
    exact ⟨rfl, h⟩
  | some f =>
    rw [hat] at hfiles
    obtain ⟨f', hat', hface⟩ := Option.map_eq_some_iff.mp hfiles.symm
    have heditors : f'.editors = f.editors := congrArg Prod.snd hface
    rw [hat']
    by_cases hedited : 0 < f.editors
    · simp only [Option.filter_some, heditors, hedited, decide_true, if_true]
      exact ⟨trivial, hedits h hat hat' _⟩
    · simp only [Option.filter_some, heditors, hedited, decide_false]
      exact ⟨rfl, h⟩

/-- A file that an editor leaves is read again on both sides. -/
theorem alike_disconnect {path : Path} (hedits : EditsAt J path) :
    Alike J (disconnect path : Plain (Except WorkspaceError Unit)) := by
  refine .bind (hJ.alike_dropEditor hedits) fun dropped => ?_
  cases dropped with
  | error e => exact .pure _
  | ok last =>
    refine .bind .disk fun d => ?_
    split
    · refine .bind (hJ.alike_loadFromDisk path) fun loaded => ?_
      split
      · exact .bind hJ.alike_rehash fun _ => .pure _
      · exact .bind hJ.alike_rehash fun _ => .pure _
      · exact .pure _
    · exact .pure _

/-- A text that may be set is set on both sides. -/
theorem alike_setText {path : Path} (hwrites : WritesAt J path) (text : String) :
    Alike J (setText path text : Plain (Except WorkspaceError FileId)) := by
  refine .locked fun st st' h => ?_
  have hsame := hJ.isNone_eq h path
  cases hat : st.store.at? path with
  | none =>
    rw [hat] at hsame
    have hat' : st'.store.at? path = none := by simpa using hsame.symm
    rw [hat']
    exact ⟨rfl, h⟩
  | some f =>
    rw [hat] at hsame
    obtain ⟨f', hat'⟩ : ∃ f', st'.store.at? path = some f' :=
      Option.isSome_iff_exists.mp (by simpa using hsame.symm)
    rw [hat']
    exact ⟨congrArg Except.ok (hJ.applyParse_fst h path text _), hJ.rehash (hwrites h text)⟩

end Lockstep

/-- Whether a request can touch files or projects. -/
def Request.touchesFiles : Request → Bool
  | .connect _ | .disconnect _ | .setText _ _ | .load _ | .forget _ | .loadMissing | .applyChanges _
  | .reconfigure => true
  | _ => false

/-- Checks and questions touch neither files nor projects. -/
theorem Plain.Still.carryOut {r : Request} (hr : r.touchesFiles = false) :
    Still (Engine.carryOut r : Plain Answer) := by
  have hdone : ∀ {β : Type} {x : Plain β} {g : β → Answer}, Still x →
      Still (do return g (← x) : Plain Answer) := fun hx => hx.bind fun _ => .pure _
  cases r with
  | connect path | disconnect path | setText path text | load path | forget path | loadMissing
  | applyChanges changes | reconfigure => exact absurd hr (by simp [Request.touchesFiles])
  | invalidate => exact hdone (.change fun _ => ⟨rfl, rfl⟩)
  | rehash => exact hdone (.change fun st => ⟨store_rehash st, registry_rehash st⟩)
  | validate => exact hdone .validate
  | wake => exact hdone (.change fun _ => ⟨rfl, rfl⟩)
  | dispose => exact .pure _
  | namesByKind project | types project | typeNames project | reservedQNames project
  | duplicates project | reservedNames project _ | type _ project | innerOrToplevel _ project
  | describe _ project => exact hdone (.viewFresh _)
  | lookup name place => exact .inPlace place fun _ => hdone (.ask _)
  | visible place kinds => exact .inPlace place fun _ => hdone (.viewFresh _)
  | conforming name interface project => exact hdone (.ask _)
  | implementing interface project => exact hdone (.ask _)
  | firstBase qname project => exact .onType qname project fun _ => hdone (.ask _)
  | members qname project => exact .onType qname project fun _ => hdone (.ask _)
  | _ => exact hdone (.view _)

/-- What a relation needs so that a request keeps it, besides being one of states in lockstep. -/
def Request.Admits (J : State → State → Prop) : Request → Prop
  | .connect path | .disconnect path => EditsAt J path
  | .setText path _ => WritesAt J path
  | _ => True

/-- **States in lockstep stay so when they carry out the same request.** -/
theorem Lockstep.carryOut {J : State → State → Prop} (hJ : Lockstep J) {r : Request} (hr : r.Admits J)
    {st st' : State} (h : J st st') (s : Surroundings) :
    J ((Engine.carryOut r : Plain Answer) s st).2 ((Engine.carryOut r : Plain Answer) s st').2 := by
  have hdone : ∀ {β : Type} {x : Plain β} {g : β → Answer}, Alike J x →
      J ((do return g (← x) : Plain Answer) s st).2 ((do return g (← x) : Plain Answer) s st').2 :=
    fun hx => ((hx.bind fun _ => .pure _) s st st' h).2
  cases r with
  | connect path => exact hdone (hJ.alike_connect hr)
  | disconnect path => exact hdone (hJ.alike_disconnect hr)
  | setText path text => exact hdone (hJ.alike_setText hr text)
  | load path => exact hdone (hJ.alike_load path)
  | forget path => exact hdone (hJ.alike_forget path)
  | loadMissing => exact hdone hJ.alike_loadMissing
  | applyChanges changes => exact hdone (hJ.alike_applyChanges changes)
  | reconfigure => exact hdone hJ.alike_reconfigure
  | _ => exact hJ.still h (.carryOut rfl) s

/-! ### Relations between files -/

/-- States with the same projects and related files. -/
structure Alongside (R : SourceStore → SourceStore → Prop) (st st' : State) : Prop where
  projects : st.registry.projects = st'.registry.projects
  stores : R st.store st'.store

section Stores

variable {R : SourceStore → SourceStore → Prop}

/-- Stores that stay related when given a text leave states alongside. -/
theorem Alongside.applyParse {st st' : State} (h : Alongside R st st') {path : Path} {text : String}
    {parse : Parse} (hgive : R (st.store.give path text parse) (st'.store.give path text parse)) :
    Alongside R (st.applyParse path text parse).2 (st'.applyParse path text parse).2 := by
  refine ⟨?_, ?_⟩
  · rw [registry_applyParse, registry_applyParse, h.projects]
  · rw [store_applyParse, store_applyParse]
    exact hgive

/-- **Related files stay so if giving a text to a file without editor and forgetting a file keep the
relation,** and it is one of files that operations cannot tell apart. -/
theorem lockstep_of_stores
    (hwell : ∀ {s s' : SourceStore}, R s s' → s.WellFormed ∧ s'.WellFormed)
    (hpaths : ∀ {s s' : SourceStore}, R s s' → s.paths = s'.paths)
    (hnext : ∀ {s s' : SourceStore}, R s s' → s.nextNumber = s'.nextNumber)
    (hfaces : ∀ {s s' : SourceStore}, R s s' → ∀ path,
      (s.at? path).map SourceFile.face = (s'.at? path).map SourceFile.face)
    (hgive : ∀ {s s' : SourceStore}, R s s' → ∀ {path},
      (∀ f, s.at? path = some f → f.editors = 0) → ∀ text,
        R (s.give path text (Parse.ofText text)) (s'.give path text (Parse.ofText text)))
    (hremove : ∀ {s s' : SourceStore}, R s s' → ∀ path, R (s.remove path) (s'.remove path)) :
    Lockstep (Alongside R) where
  congr h hstore hprojects hstore' hprojects' :=
    ⟨by rw [hprojects, hprojects', h.projects], by rw [hstore, hstore']; exact h.stores⟩
  projects h := h.projects
  next h := hnext h.stores
  files h path := hfaces h.stores path
  applyParse {st st'} h path hedited text := by
    refine h.applyParse (hgive h.stores (fun f hat => ?_) text)
    rw [hasEditor_of_at? hat] at hedited
    simpa using hedited
  forget {st st'} h path := by
    refine ⟨?_, ?_⟩
    · rw [registry_forget, registry_forget, h.projects]
    · rw [store_forget (hwell h.stores).1, store_forget (hwell h.stores).2]
      exact hremove h.stores path
  reconfigure {st st'} h configs := by
    have hall : ∀ (paths : List Path) {s s' : SourceStore}, R s s' →
        R (paths.foldl SourceStore.remove s) (paths.foldl SourceStore.remove s') := by
      intro paths
      induction paths with
      | nil => exact fun hs => hs
      | cons p paths ih => exact fun hs => ih (hremove hs p)
    refine ⟨?_, ?_⟩
    · rw [registry_reconfigure, registry_reconfigure]
    · rw [store_reconfigure (hwell h.stores).1, store_reconfigure (hwell h.stores).2,
        hpaths h.stores]
      exact hall _ h.stores

/-- Editors keep states alongside if their counts keep stores related. -/
theorem editsAt_of_stores {path : Path} (hupdate : ∀ {s s' : SourceStore} {f f' : SourceFile},
    R s s' → s.at? path = some f → s'.at? path = some f' → ∀ editors,
      R (s.update { f with editors }) (s'.update { f' with editors })) :
    EditsAt (Alongside R) path :=
  fun _ _ _ _ h hat hat' editors => ⟨h.projects, hupdate h.stores hat hat' editors⟩

/-- Texts keep states alongside if they keep stores related. -/
theorem writesAt_of_stores {path : Path} (hgive : ∀ {s s' : SourceStore}, R s s' → ∀ text,
    R (s.give path text (Parse.ofText text)) (s'.give path text (Parse.ofText text))) :
    WritesAt (Alongside R) path :=
  fun _ _ h text => h.applyParse (hgive h.stores text)

end Stores

/-- **A property of files is kept if giving a text to a file without editor and forgetting a file keep
it.** -/
theorem lockstep_of_property {P : SourceStore → Prop}
    (hwell : ∀ {s : SourceStore}, P s → s.WellFormed)
    (hgive : ∀ {s : SourceStore}, P s → ∀ {path}, (∀ f, s.at? path = some f → f.editors = 0) →
      ∀ text, P (s.give path text (Parse.ofText text)))
    (hremove : ∀ {s : SourceStore}, P s → ∀ path, P (s.remove path)) :
    Lockstep (Alongside fun s s' => s = s' ∧ P s) := by
  refine lockstep_of_stores ?_ ?_ ?_ ?_ ?_ ?_
  · rintro s _ ⟨rfl, hs⟩
    exact ⟨hwell hs, hwell hs⟩
  · rintro s _ ⟨rfl, _⟩
    rfl
  · rintro s _ ⟨rfl, _⟩
    rfl
  · rintro s _ ⟨rfl, _⟩ path
    rfl
  · rintro s _ ⟨rfl, hs⟩ path hidle text
    exact ⟨rfl, hgive hs hidle text⟩
  · rintro s _ ⟨rfl, hs⟩ path
    exact ⟨rfl, hremove hs path⟩

end NedWorkspace
