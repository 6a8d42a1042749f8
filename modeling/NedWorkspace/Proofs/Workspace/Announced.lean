/-
# Changes of the model are announced

SPEC_FULL, section 3 (ChangeSerial), section 4.4 (`invalidate`) and section 4.5 (the events).

Clients tell by the serial number and by the events whether what they know is out of date. Two things
are needed for that, and they are shown apart. What answers depend on does not change without the serial
number going up (`State.Dated`): that is so for every step, whoever takes it. And the serial number does
not go up without an event that says so (`State.Announced`): that is so for operations as a whole, since
the loading of what is missing queues its one event at the end and drops those before it.

Together, no request but the one to drop derived data changes an answer in silence, nor do any number of
them, one after another or in brackets: `State.no_silent_change`.
-/

import NedWorkspace.Proofs.Workspace.Coherent
import NedWorkspace.Proofs.Workspace.Files

namespace NedWorkspace

/-- Whether an event tells that there may be other types. -/
def Event.announces : Event → Bool
  | .fileRemoved _ | .modelChanged _ => true
  | _ => false

namespace State

theorem changeSerial_rehash (st : State) : st.rehash.changeSerial = st.changeSerial := by
  unfold rehash
  split
  · rfl
  · rfl

theorem events_rehash (st : State) : st.rehash.events = st.events := by
  unfold rehash
  split
  · rfl
  · rfl

/-! ### The serial number -/

/-- The same types are known in the same files. -/
structure SameModel (st st' : State) : Prop where
  current : st'.current = st.current
  fileAt : ∀ path, (st'.store.at? path).map SourceFile.id = (st.store.at? path).map SourceFile.id
  files : st'.store.all.map SourceFile.id = st.store.all.map SourceFile.id

namespace SameModel

variable {a b c st : State}

theorem refl (st : State) : SameModel st st :=
  ⟨rfl, fun _ => rfl, rfl⟩

theorem trans (hab : SameModel a b) (hbc : SameModel b c) : SameModel a c :=
  ⟨hbc.current.trans hab.current, fun path => (hbc.fileAt path).trans (hab.fileAt path),
    hbc.files.trans hab.files⟩

theorem symm (hab : SameModel a b) : SameModel b a :=
  ⟨hab.current.symm, fun path => (hab.fileAt path).symm, hab.files.symm⟩

/-- Nothing but the text, the tree and the editors of a file is another. -/
theorem update (hkept : st.Kept) {path : Path} {f g : SourceFile} (hat : st.store.at? path = some f)
    (hpath : g.path = f.path) (hnumber : g.number = f.number) (hbroken : g.broken = f.broken) :
    SameModel st { st with store := st.store.update g } := by
  have hid : g.id = f.id := congrArg FileId.source hnumber
  refine ⟨?_, fun q => ?_, hkept.store.map_all_update hat hnumber hid⟩
  · rw [State.current, State.current, participants_eq, participants_eq,
      hkept.store.map_all_update hat hnumber (Prod.ext hid hbroken)]
  · rw [hkept.store.at?_update hat hpath hnumber]
    split
    · rename_i hq
      rw [← st.store.at?_congr hq, hat, Option.map_some, Option.map_some, hid]
    · rfl

/-- To rebuild the tables leaves what the model shows. -/
theorem rehash (st : State) : SameModel st st.rehash := by
  refine ⟨?_, fun path => by rw [store_rehash], by rw [store_rehash]⟩
  unfold State.rehash
  split
  · rfl
  · rfl

end SameModel

/-- The model is the same, or the serial number is higher. -/
inductive Dated (st st' : State) : Prop
  | same (model : SameModel st st') (serial : st'.changeSerial = st.changeSerial)
  | later (serial : st.changeSerial < st'.changeSerial)

namespace Dated

variable {a b c st : State}

/-- Dated steps in a row are dated. -/
theorem trans (hab : Dated a b) (hbc : Dated b c) : Dated a c := by
  obtain ⟨hmodel, hserial⟩ | hlater := hab
  · obtain ⟨hmodel', hserial'⟩ | hlater' := hbc
    · exact .same (hmodel.trans hmodel') (hserial'.trans hserial)
    · exact .later (hserial ▸ hlater')
  · obtain ⟨_, hserial'⟩ | hlater' := hbc
    · exact .later (hserial' ▸ hlater)
    · exact .later (hlater.trans hlater')

/-- A text that parses is dated where it changes what the model shows. -/
theorem applyClean (hkept : st.Kept) {path : Path} {f : SourceFile}
    (hat : st.store.at? path = some f) (text : String) (tree : Tree) :
    Dated st (st.applyClean f text tree) := by
  unfold State.applyClean
  dsimp only
  set now := { f with text, errors := [], broken := false, tree := (f.tree.merge tree).tree }
  split
  · obtain ⟨queued, diagnostics, heq⟩ := remap_eq (((({ st with
      store := st.store.update now }.emit .began).indexFile now).invalidate).emit
        (.treeMerged f.id)) now
    rw [heq]
    exact .later (Nat.lt_succ_self _)
  · obtain ⟨queued, diagnostics, heq⟩ := remap_eq { st with store := st.store.update now } now
    rw [heq]
    split
    · exact .later (Nat.lt_succ_self _)
    · rename_i hbroken
      have hsame : SameModel st { st with store := st.store.update now } :=
        .update hkept hat rfl rfl (Bool.eq_false_of_not_eq_true hbroken).symm
      exact .same ⟨hsame.current, hsame.fileAt, hsame.files⟩ rfl

/-- To forget a file never sets the serial number back. -/
theorem changeSerial_forget (st : State) (path : Path) :
    st.changeSerial ≤ (st.forget path).2.changeSerial := by
  unfold State.forget
  split
  · exact Nat.le_refl _
  · exact Nat.le_succ _

/-- To forget files never sets the serial number back. -/
theorem changeSerial_forgetEach (st : State) (paths : List Path) :
    st.changeSerial ≤ (st.forgetEach paths).changeSerial := by
  induction paths generalizing st with
  | nil => exact Nat.le_refl _
  | cons p paths ih => exact (changeSerial_forget st p).trans (ih _)

/-- New projects are dated. -/
theorem reconfigure (st : State) (configs : List ProjectConfig) :
    Dated st (st.reconfigure configs) := by
  let assigned := { st with registry := .ofConfigs configs }.assignOwners
  have hforgotten := changeSerial_forgetEach (assigned.emit .began)
    (assigned.store.paths.filter fun p => !assigned.registry.isNedFile p)
  exact .later (Nat.lt_succ_of_le hforgotten)

end Dated

/-- **No step changes what answers depend on without a new serial number.** -/
theorem Step.dated {asking : Prop} {st st' : State} (hs : Step asking st st') (hkept : st.Kept) :
    Dated st st' := by
  cases hs with
  | noted events diagnostics => exact .same ⟨rfl, fun _ => rfl, rfl⟩ rfl
  | edited hat editors => exact .same (.update hkept hat rfl rfl rfl) rfl
  | loaded hat text => exact .later (Nat.lt_succ_self _)
  | @broken path f hat text hok =>
    unfold State.applyBroken
    dsimp only
    split
    · rename_i hbroken
      exact .same (.update hkept hat rfl rfl hbroken.symm) rfl
    · exact .later (Nat.lt_succ_self _)
  | cleaned hat hok => exact .applyClean hkept hat _ _
  | forgot path =>
    unfold State.forget
    split
    · exact .same (.refl st) rfl
    · exact .later (Nat.lt_succ_self _)
  | configured configs => exact .reconfigure st configs
  | invalidated => exact .later (Nat.lt_succ_self _)
  | rehashed => exact .same (.rehash st) (changeSerial_rehash st)
  | asked hasking hdirty hm => exact .same ⟨rfl, fun _ => rfl, rfl⟩ rfl

/-- All that happens by steps is dated, and what is kept is kept. -/
theorem Steps.dated {asking : Prop} {st st' : State} (hs : Steps asking st st') (hkept : st.Kept) :
    st'.Kept ∧ Dated st st' := by
  induction hs with
  | refl => exact ⟨hkept, .same (.refl st) rfl⟩
  | tail _ hstep ih => exact ⟨ih.1.step hstep, ih.2.trans (hstep.dated ih.1)⟩

/-! ### Events -/

/-- Events are queued and none is taken back, and a new serial number is announced by one of them. -/
def Announced (st st' : State) : Prop :=
  ∃ queued : List Event, st'.events = st.events ++ queued ∧
    (st'.changeSerial ≠ st.changeSerial → ∃ e ∈ queued, e.announces = true)

namespace Announced

variable {a b c st st' : State}

/-- Nothing happens. -/
theorem of_eq (hevents : st'.events = st.events) (hserial : st'.changeSerial = st.changeSerial) :
    Announced st st' :=
  ⟨[], by rw [hevents, List.append_nil], fun hne => absurd hserial hne⟩

/-- It is told that there may be other types. -/
theorem of_mem (queued : List Event) (hevents : st'.events = st.events ++ queued) {e : Event}
    (he : e ∈ queued) (hannounces : e.announces = true) : Announced st st' :=
  ⟨queued, hevents, fun _ => ⟨e, he, hannounces⟩⟩

theorem trans (hab : Announced a b) (hbc : Announced b c) : Announced a c := by
  obtain ⟨queued, hevents, hannounced⟩ := hab
  obtain ⟨queued', hevents', hannounced'⟩ := hbc
  refine ⟨queued ++ queued', by rw [hevents', hevents, List.append_assoc], fun hne => ?_⟩
  by_cases hserial : b.changeSerial = a.changeSerial
  · obtain ⟨e, he, hannounces⟩ := hannounced' (hserial ▸ hne)
    exact ⟨e, List.mem_append_right _ he, hannounces⟩
  · obtain ⟨e, he, hannounces⟩ := hannounced hserial
    exact ⟨e, List.mem_append_left _ he, hannounces⟩

theorem emit (st : State) (e : Event) : Announced st (st.emit e) :=
  ⟨[e], rfl, fun hne => absurd rfl hne⟩

/-- An event queued on a condition leaves what was queued before. -/
theorem emitIf (st : State) (reason : Bool) (e : Event) : Announced st (st.emitIf reason e) := by
  unfold State.emitIf
  split
  · exact emit st e
  · exact of_eq rfl rfl

theorem rehash (st : State) : Announced st st.rehash :=
  of_eq (events_rehash st) (changeSerial_rehash st)

/-- A text with errors changes no types, and needs no announcement. -/
theorem applyBroken (st : State) (f : SourceFile) (text : String) (errors : List SyntaxError) :
    Announced st (st.applyBroken f text errors) := by
  unfold State.applyBroken
  dsimp only
  split
  · exact of_eq rfl rfl
  · exact of_mem _ rfl List.mem_cons_self rfl

theorem applyClean (st : State) (f : SourceFile) (text : String) (tree : Tree) :
    Announced st (st.applyClean f text tree) := by
  unfold State.applyClean
  dsimp only
  set now := { f with text, errors := [], broken := false, tree := (f.tree.merge tree).tree }
  split
  · obtain ⟨queued, diagnostics, heq⟩ := remap_eq (((({ st with
      store := st.store.update now }.emit .began).indexFile now).invalidate).emit
        (.treeMerged f.id)) now
    rw [heq]
    refine of_mem ([.began, .treeMerged f.id] ++ queued ++ [.modelChanged (some f.id), .ended]) ?_
      (List.mem_append_right _ List.mem_cons_self) rfl
    simp [State.emit, State.invalidate, State.indexFile]
  · obtain ⟨queued, diagnostics, heq⟩ := remap_eq { st with store := st.store.update now } now
    rw [heq]
    have hmoved : Announced st { st with
        store := st.store.update now, events := st.events ++ queued, diagnostics } :=
      ⟨queued, rfl, fun hne => absurd rfl hne⟩
    split
    · exact hmoved.trans (of_mem _ rfl List.mem_cons_self rfl)
    · exact hmoved

/-- A text is announced where it changes what the model shows. -/
theorem applyParse (st : State) (path : Path) (text : String) (parse : Parse) :
    Announced st (st.applyParse path text parse).2 := by
  unfold State.applyParse
  split
  · exact of_mem _ (List.append_assoc ..) (List.mem_cons_of_mem _ List.mem_cons_self) rfl
  · dsimp only
    split
    · exact applyClean ..
    · exact applyBroken ..

/-- A file that is forgotten is announced. -/
theorem forget (st : State) (path : Path) : Announced st (st.forget path).2 := by
  unfold State.forget
  split
  · exact of_eq rfl rfl
  · exact of_mem _ rfl List.mem_cons_self rfl

/-- Files that are forgotten are announced. -/
theorem forgetEach (st : State) (paths : List Path) : Announced st (st.forgetEach paths) := by
  induction paths generalizing st with
  | nil => exact of_eq rfl rfl
  | cons p paths ih => exact (forget st p).trans (ih _)

/-- New projects are announced. -/
theorem reconfigure (st : State) (configs : List ProjectConfig) :
    Announced st (st.reconfigure configs) := by
  let assigned := { st with registry := .ofConfigs configs }.assignOwners
  have hassigned : Announced st assigned := of_eq rfl rfl
  have hforgotten := forgetEach (assigned.emit .began)
    (assigned.store.paths.filter fun p => !assigned.registry.isNedFile p)
  exact (hassigned.trans ((emit _ _).trans (hforgotten.trans (emit _ .ended)))).trans
    (of_mem _ rfl List.mem_cons_self rfl)

theorem planValidation (st : State) : Announced st st.planValidation.2 :=
  (rehash st).trans (of_eq rfl rfl)

/-- Publishing is an event, but not one about types. -/
theorem publish (st : State) (id : FileId) (found : List Diagnostic) :
    Announced st (st.publish id found) := by
  unfold State.publish
  refine (rehash st).trans ?_
  dsimp only
  split
  · exact of_eq rfl rfl
  · split
    · exact (of_eq rfl rfl).trans (emitIf _ _ _)
    · exact (of_eq rfl rfl).trans (emitIf _ _ _)

/-- All moves of operations keep announcements. -/
theorem openMoves : OpenMoves Announced where
  refl _ := of_eq rfl rfl
  trans := trans
  edited _ _ := of_eq rfl rfl
  applyParse st path text := applyParse st path text _
  forget := forget
  reconfigure := reconfigure
  rehash := rehash

end Announced

end State

namespace Engine

open State

/-- The operation queues events and announces a new serial number. -/
def Announces {α : Type} (x : Plain α) : Prop :=
  ∀ s st, Announced st (x s st).2

theorem announces_conveys : Conveys Plain Announced Announces where
  moves := Announced.openMoves
  done _ _ _ := .of_eq rfl rfl
  andThen hx hf s st := (hx s st).trans (hf _ s _)
  readsDisk _ _ := .of_eq rfl rfl
  readsProvider _ _ := .of_eq rfl rfl
  inSection h _ st := h st
  bracketed hx s st := (Announced.emit st .began).trans ((hx s _).trans (.emit _ .ended))

/-- Nobody is told of the files one by one. -/
theorem events_loadEach (read : List (Path × Except WorkspaceError String)) (s : Surroundings)
    (st : State) :
    ((loadEach read : Plain (Nat × List WorkspaceError)) s st).2.events = st.events := by
  induction read generalizing st with
  | nil => rfl
  | cons r more ih =>
    obtain ⟨path, text⟩ := r
    cases text with
    | error e => exact ih st
    | ok text =>
      have hsilent : ((loadSilently path text : Plain Bool) s st).2.events = st.events := by
        rw [loadSilently, Plain.locked_apply]
        split
        · rfl
        · rfl
      exact (ih _).trans hsilent

/-- An operation that leaves the queue alone may be announced at its end. -/
theorem announces_closing {α : Type} {x : Plain α} {e : Event} (he : e.announces = true)
    (hx : ∀ s st, (x s st).2.events = st.events) : Announces (closing (·.emit e) x) := by
  intro s st
  refine .of_mem [e] ?_ List.mem_cons_self he
  rw [← hx s st]
  rfl

/-- To load what is missing announces at its end what it loaded. -/
theorem announces_loadMissing : Announces (loadMissing : Plain (Except WorkspaceError Nat)) := by
  refine announces_conveys.andThen (announces_conveys.view _) fun folders =>
    announces_conveys.andThen announces_conveys.readsDisk fun d => ?_
  dsimp only
  refine announces_conveys.andThen (announces_conveys.view _) fun missing => ?_
  split
  · exact announces_conveys.done _
  · refine announces_conveys.andThen announces_conveys.readsDisk fun d =>
      announces_closing rfl fun s st => ?_
    exact (events_rehash _).trans (events_loadEach _ s st)

theorem announces_ask {α : Type} (q : Model → Query α) : Announces (ask q : Plain α) :=
  announces_conveys.inSection fun st => (Announced.rehash st).trans (.of_eq rfl rfl)

/-- Publishing file by file needs no announcement. -/
theorem announces_publishEach (duplicates : List Diagnostic) (ids : List FileId) :
    Announces (publishEach duplicates ids : Plain Unit) := by
  induction ids with
  | nil => exact announces_conveys.done _
  | cons id ids ih =>
    exact announces_conveys.andThen (announces_conveys.change fun st => .publish st id _) fun _ => ih

theorem announces_validate : Announces (validate : Plain Unit) :=
  announces_conveys.bracketed (announces_conveys.andThen
    (announces_conveys.inSection Announced.planValidation) fun _ => announces_publishEach _ _)

/-- **Requests announce what they change.** -/
theorem announces_carryOut {r : Request} (hr : r ≠ .invalidate) :
    Announces (carryOut r : Plain Answer) :=
  announces_conveys.carryOut announces_loadMissing (fun _ => announces_ask _) announces_validate hr

/-! ### Answers -/

/-- The result is the same in reachable states that have the same model, and these stay so. -/
def OfModel {α : Type} (x : Plain α) : Prop :=
  ∀ s s' st st', st.Reachable → st'.Reachable → SameModel st st' →
    (x s' st').1 = (x s st).1 ∧ (x s st).2.Reachable ∧ (x s' st').2.Reachable ∧
      SameModel (x s st).2 (x s' st').2

namespace OfModel

variable {α β : Type}

theorem done (a : α) : OfModel (pure a : Plain α) :=
  fun _ _ _ _ hst hst' h => ⟨rfl, hst, hst', h⟩

/-- Requests of the model in a row depend on nothing but the model. -/
theorem andThen {x : Plain α} {f : α → Plain β} (hx : OfModel x) (hf : ∀ a, OfModel (f a)) :
    OfModel (x >>= f) := by
  intro s s' st st' hst hst' h
  obtain ⟨hresult, hx₁, hx₂, hsame⟩ := hx s s' st st' hst hst' h
  rw [Plain.bind_apply, Plain.bind_apply, hresult]
  exact hf _ s s' _ _ hx₁ hx₂ hsame

/-- What is read off the model depends on nothing else. -/
theorem view {f : State → α} (hf : ∀ {st st'}, SameModel st st' → f st' = f st) :
    OfModel (Engine.view f : Plain α) :=
  fun _ _ _ _ hst hst' h => ⟨hf h, hst, hst', h⟩

/-- What is read off up-to-date tables. -/
theorem viewFresh (g : Model → α) : OfModel (Engine.viewFresh fun st => g st.model : Plain α) := by
  intro s s' st st' hst hst' h
  refine ⟨?_, hst.tail (.rehashed st), hst'.tail (.rehashed st'),
    (SameModel.rehash st).symm.trans (h.trans (.rehash st'))⟩
  change g st'.rehash.model = g st.rehash.model
  rw [hst.coherent.model_rehash, hst'.coherent.model_rehash, h.current]

theorem lookup (name : String) (context : LookupContext) :
    OfModel (ask fun m => m.lookup name context : Plain (Option Definition)) := by
  intro s s' st st' hst hst' h
  have hasks (m : Model) : Query.Asks m (m.lookup name context) := m.lookup_asks name context
  refine ⟨?_, hst.trans (Steps.ask st trivial hasks), hst'.trans (Steps.ask st' trivial hasks), ?_⟩
  · rw [hst.coherent.lookup, hst'.coherent.lookup, h.current]
  · obtain ⟨hcurrent, hfileAt, hfiles⟩ :=
      (SameModel.rehash st).symm.trans (h.trans (.rehash st'))
    exact ⟨hcurrent, hfileAt, hfiles⟩

/-- A type asked for by its name is found by the model. -/
theorem typeNamed (qname project : String) :
    OfModel (Engine.typeNamed qname project : Plain (Option Definition)) :=
  viewFresh fun m => m.innerOrToplevel? qname project

/-- What a table shows depends on the model only. -/
theorem viewTable (project : String) (absent : α) (f : ProjectTable → α) :
    OfModel (Engine.viewTable project absent f : Plain α) := by
  have hview : (Engine.viewTable project absent f : Plain α) =
      Engine.viewFresh fun st => (st.model.table? project).elim absent f := by
    refine congrArg Engine.viewFresh (funext fun st => ?_)
    change _ = (st.registry.table? project).elim absent f
    cases st.registry.table? project with
    | none => rfl
    | some table => rfl
  rw [hview]
  exact viewFresh fun m => (m.table? project).elim absent f

theorem contextOf (place : Place) : OfModel (Engine.contextOf place : Plain (Option LookupContext)) := by
  cases place with
  | file id => exact done _
  | type qname project => exact andThen (typeNamed qname project) fun _ => done _
  | path path =>
    refine view fun {st st'} h => ?_
    have hid := congrArg (Option.map LookupContext.file) (h.fileAt path)
    rwa [Option.map_map, Option.map_map] at hid
  | nowhere => exact done _

/-- A question asked in a place depends on the model only. -/
theorem inPlace (place : Place) {f : LookupContext → Plain Answer} (hf : ∀ c, OfModel (f c)) :
    OfModel (Engine.inPlace place f) := by
  refine andThen (contextOf place) fun context => ?_
  cases context with
  | none => exact done _
  | some context => exact hf context

theorem allTypes : OfModel (Engine.allTypes : Plain (List Definition)) := by
  refine view fun {st st'} h => ?_
  have hindex : st'.index = st.index := congrArg Model.index h.current
  have htypes := congrArg (List.flatMap st.index.fileTypes) h.files
  simpa only [List.flatMap_map, hindex] using htypes

end OfModel

end Engine

namespace Request

/-- The questions that tables answer, and the lookup of names. -/
def asksModel : Request → Bool
  | types _ | allTypes | allTypeNames | typeNames _ | reservedQNames _ | reservedNames _ _
  | duplicates _ | namesByKind _ | type _ _ | innerOrToplevel _ _ | lookup _ _ => true
  | _ => false

/-- A request about the model is answered from it. -/
theorem ofModel {r : Request} (h : r.asksModel = true) :
    Engine.OfModel (Engine.carryOut r : Plain Answer) := by
  have hdone {β : Type} {x : Plain β} {g : β → Answer} (hx : Engine.OfModel x) :
      Engine.OfModel (do return g (← x) : Plain Answer) :=
    hx.andThen fun _ => .done _
  cases r with
  | types project | typeNames project | reservedQNames project | duplicates project
  | type _ project | namesByKind project => exact hdone (.viewTable project _ _)
  | allTypes => exact hdone .allTypes
  | allTypeNames => exact hdone .allTypes
  | reservedNames project package =>
    exact hdone (.viewFresh fun m => Registry.reservedNames ⟨{}, m.tables⟩ project package)
  | innerOrToplevel qname project => exact hdone (.typeNamed qname project)
  | lookup name place => exact .inPlace place fun context => hdone (.lookup name context)
  | _ => exact absurd h Bool.false_ne_true

end Request

namespace Engine

open State

/-- A question about types: a request that tables answer, or the lookup of a name in a context. -/
inductive Enquiry : {α : Type} → Plain α → Prop
  | request {r : Request} (h : r.asksModel = true) : Enquiry (carryOut r)
  | lookup (name : String) (context : LookupContext) : Enquiry (ask fun m => m.lookup name context)

/-- What a client can do, short of the request to drop derived data: requests, the answers to which may
decide on further ones, and brackets around them. What is on the disk may change in between. -/
inductive Client : {α : Type} → Plain α → Prop
  | request {r : Request} (h : r ≠ .invalidate) : Client (carryOut r)
  | done {α : Type} (a : α) : Client (pure a)
  | andThen {α β : Type} {x : Plain α} {f : α → Plain β} (first : Client x)
      (next : ∀ a, Client (f a)) : Client (x >>= f)
  | bracketed {α : Type} {x : Plain α} (inner : Client x) : Client (bracketed x)
  | amid {α : Type} {x : Plain α} (s : Surroundings) (inner : Client x) : Client fun _ => x s

namespace Client

variable {α : Type} {x : Plain α}

/-- Whatever clients do is announced. -/
theorem announces (h : Client x) : Announces x := by
  induction h with
  | request h => exact announces_carryOut h
  | done a => exact announces_conveys.done a
  | andThen _ _ ihfirst ihnext => exact announces_conveys.andThen ihfirst ihnext
  | bracketed _ ih => exact announces_conveys.bracketed ih
  | amid s _ ih => exact fun _ => ih s

/-- Whatever clients do is made of steps. -/
theorem keeps (h : Client x) : Stepwise.Keeps True x := by
  induction h with
  | request _ => exact carryOut_keeps trivial _
  | done a => exact Stepwise.done a
  | andThen _ _ ihfirst ihnext => exact Stepwise.andThen ihfirst ihnext
  | bracketed _ ih => exact bracketed_keeps ih
  | amid s _ ih => exact fun _ => ih s

end Client

end Engine

namespace State

open Engine

/-- **No answer changes in silence.** Take any state that a workspace can reach and anything that a
client does short of dropping derived data. If some question about types has another answer afterwards,
then the serial number is higher, and among the events that were queued meanwhile and are still there is
one that tells of a change of the model or of a file that was forgotten. -/
theorem no_silent_change {α β : Type} {st : State} (hst : st.Reachable) {x : Plain α} (hx : Client x)
    (s : Surroundings) {q : Plain β} (hq : Enquiry q) (s₁ s₂ : Surroundings)
    (hdiffers : (q s₂ (x s st).2).1 ≠ (q s₁ st).1) :
    st.changeSerial < (x s st).2.changeSerial ∧
      ∃ queued, (x s st).2.events = st.events ++ queued ∧ ∃ e ∈ queued, e.announces = true := by
  have hsteps : Steps True st (x s st).2 := hx.keeps s st
  have hlater : st.changeSerial < (x s st).2.changeSerial := by
    obtain ⟨hsame, _⟩ | hlater := (hsteps.dated hst.kept).2
    · have hanswer : OfModel q := by
        cases hq with
        | request h => exact Request.ofModel h
        | lookup name context => exact .lookup name context
      exact absurd (hanswer s₁ s₂ st _ hst (hst.trans hsteps) hsame).1 hdiffers
    · exact hlater
  obtain ⟨queued, hevents, hannounced⟩ := hx.announces s st
  exact ⟨hlater, queued, hevents, hannounced hlater.ne'⟩

/-- A lookup in a file that is not loaded. -/
theorem lookup_path_of_missing {st : State} {path : Path} (h : st.store.at? path = none)
    (name : String) (s : Surroundings) :
    ((carryOut (.lookup name (.path path)) : Plain Answer) s st).1 = .lacking .context := by
  rw [carryOut, inPlace, Plain.bind_apply, contextOf, viewFile, Plain.view_apply, h]
  rfl

/-- A lookup in a file that is loaded. -/
theorem lookup_path_of_loaded {st : State} {path : Path} {f : SourceFile}
    (h : st.store.at? path = some f) (name : String) (s : Surroundings) :
    ((carryOut (.lookup name (.path path)) : Plain Answer) s st).1 =
      .ofOption .definition
        ((Engine.ask fun m => m.lookup name (.file f.id) : Plain (Option Definition)) s st).1 := by
  rw [carryOut, inPlace, Plain.bind_apply, contextOf, viewFile, Plain.view_apply, h]
  rfl

/-- A file is loaded, in brackets; names can be looked up there that could not before. -/
theorem no_silent_change_loaded :
    let s : Surroundings := ⟨FileMap.disk (SortedMap.insert {} ⟨"/p/a.ned"⟩ "simple A \x7b\x7d"),
      .fixed [⟨"p", ⟨"/p"⟩, [⟨""⟩], []⟩]⟩
    let st := ((Engine.reconfigure : Plain (Except WorkspaceError Unit)) s {}).2
    let st' := ((bracketed (carryOut (.load ⟨"/p/a.ned"⟩)) : Plain Answer) s st).2
    st.changeSerial < st'.changeSerial ∧
      ∃ queued, st'.events = st.events ++ queued ∧ ∃ e ∈ queued, e.announces = true := by
  intro s st st'
  have hst : st.Reachable := Plain.steps reconfigure_keeps s {}
  have hclient : Client (bracketed (carryOut (.load ⟨"/p/a.ned"⟩)) : Plain Answer) :=
    .bracketed (.request nofun)
  have hbefore : st.store.at? ⟨"/p/a.ned"⟩ = none := Option.isNone_iff_eq_none.mp (by decide +kernel)
  obtain ⟨f, hafter⟩ : ∃ f, st'.store.at? ⟨"/p/a.ned"⟩ = some f :=
    Option.isSome_iff_exists.mp (by decide +kernel)
  refine no_silent_change hst hclient s (.request (r := .lookup "A" (.path ⟨"/p/a.ned"⟩)) rfl) s s
    fun heq => ?_
  rw [lookup_path_of_loaded hafter, lookup_path_of_missing hbefore] at heq
  generalize ((Engine.ask fun m => m.lookup "A" (.file f.id) : Plain (Option Definition)) s st').1 =
    found at heq
  cases found <;> exact nomatch heq

end State

end NedWorkspace
