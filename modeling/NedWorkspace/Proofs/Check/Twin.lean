/-
# Checking corresponding files

Twin models give corresponding findings about corresponding definitions: the same problems in the same
order, each at a corresponding node. One lemma for each check, in the order of the checks; the results
are `Check.twin_fileFindings` for a file and `Check.twin_duplicates` for ambiguous names.
-/

import NedWorkspace.Proofs.Resolve.Simulation

namespace NedWorkspace

open Query

/-- The same problem at corresponding nodes. -/
structure Finding.Alike (N : NodeId → NodeId → Prop) (f g : Finding) : Prop where
  node : Option.Rel N f.node g.node
  problem : f.problem = g.problem

namespace Check

/-- The same problems at corresponding nodes, in the same order. -/
abbrev Found (N : NodeId → NodeId → Prop) : List Finding → List Finding → Prop :=
  List.Forall₂ (Finding.Alike N)

variable {K : TypeKey → TypeKey → Prop} {m m' : Model} {N : NodeId → NodeId → Prop}
  {n n' : NodeId}

/-- A finding at nodes that correspond. -/
theorem found_finding (h : N n n') (problem : Problem) :
    Found N (finding n problem) (finding n' problem) :=
  .cons ⟨.some h, rfl⟩ .nil

theorem found_findingIf (condition : Bool) (h : N n n') (problem : Problem) :
    Found N (findingIf condition n problem) (findingIf condition n' problem) := by
  unfold findingIf
  split
  · exact found_finding h problem
  · exact .nil

/-- Findings gathered from corresponding elements by corresponding queries correspond. -/
theorem twin_collect {α β γ δ : Type} {R : α → β → Prop} {S : γ → δ → Prop}
    {f : α → Query (List γ)} {g : β → Query (List δ)}
    (hfg : ∀ a b, R a b → Simulates K m m' (List.Forall₂ S) (f a) (g b)) {as : List α} {bs : List β}
    (h : List.Forall₂ R as bs) :
    Simulates K m m' (List.Forall₂ S) (collect f as) (collect g bs) := by
  induction h with
  | nil => exact .pure .nil
  | cons hab _ ih =>
    exact .bind (hfg _ _ hab) fun _ _ hhere => .bind ih fun _ _ hmore =>
      .pure (List.rel_append hhere hmore)

section Members

variable {own own' : Members} (hown : own.Alike K m m' own')
include hown

theorem twin_requiredParam (hn : N n n') (interface : String) {p q : InheritedParam}
    (hpq : p.Alike q) :
    Found N (requiredParam n own interface p) (requiredParam n' own' interface q) := by
  have hfound := hown.param? q.decl.name
  unfold requiredParam
  rw [hpq.name, hpq.type]
  generalize own.param? q.decl.name = x at hfound ⊢
  generalize own'.param? q.decl.name = y at hfound ⊢
  cases hfound with
  | none => exact found_finding hn _
  | some hxy =>
    dsimp only
    rw [hxy.type]
    exact found_findingIf _ hn _

theorem twin_requiredGate (hn : N n n') (interface : String) {g k : InheritedGate}
    (hgk : g.Alike k) :
    Found N (requiredGate n own interface g) (requiredGate n' own' interface k) := by
  have hfound := hown.gate? k.decl.name
  unfold requiredGate
  rw [hgk.name, hgk.direction, hgk.isVector]
  generalize own.gate? k.decl.name = x at hfound ⊢
  generalize own'.gate? k.decl.name = y at hfound ⊢
  cases hfound with
  | none => exact found_finding hn _
  | some hxy =>
    dsimp only
    rw [hxy.direction, hxy.isVector]
    exact found_findingIf _ hn _

/-- The checks of parameters see nothing but names and what is inherited. -/
theorem twin_params (qname : String) (seen : List String) {ps qs : List Param}
    (h : List.Forall₂ (Twin N) ps qs) :
    Found N (params qname own seen ps) (params qname own' seen qs) := by
  induction h generalizing seen with
  | nil => exact .nil
  | @cons p q ps qs hpq _ ih =>
    have hnode := Param.Twin.node hpq
    have hfound := hown.param? q.name
    rw [params, params, Param.Twin.name hpq, Param.Twin.type hpq]
    generalize own.param? q.name = x at hfound ⊢
    generalize own'.param? q.name = y at hfound ⊢
    split
    · refine List.rel_append ?_ (ih _)
      split
      · exact found_finding hnode _
      · cases hfound with
        | none => exact .nil
        | some hxy =>
          dsimp only
          rw [hxy.declaredIn]
          exact found_findingIf _ hnode _
    · refine List.rel_append ?_ (ih _)
      cases hfound with
      | none => exact found_findingIf _ hnode _
      | some hxy => exact found_findingIf _ hnode _

/-- The checks of gates see nothing but names, kinds and what is inherited. -/
theorem twin_gates (qname : String) (seen : List String) {gs ks : List Gate}
    (h : List.Forall₂ (Twin N) gs ks) :
    Found N (gates qname own seen gs) (gates qname own' seen ks) := by
  induction h generalizing seen with
  | nil => exact .nil
  | @cons g k gs ks hgk _ ih =>
    have hnode := Gate.Twin.node hgk
    have hfound := hown.gate? k.name
    rw [gates, gates, Gate.Twin.name hgk, Gate.Twin.direction hgk]
    generalize own.gate? k.name = x at hfound ⊢
    generalize own'.gate? k.name = y at hfound ⊢
    split
    · refine List.rel_append ?_ (ih _)
      split
      · exact found_finding hnode _
      · cases hfound with
        | none => exact .nil
        | some hxy =>
          dsimp only
          rw [hxy.declaredIn]
          exact found_findingIf _ hnode _
    · refine List.rel_append ?_ (ih _)
      cases hfound with
      | none => exact found_finding hnode _
      | some hxy =>
        dsimp only
        rw [hxy.isVector]
        exact found_findingIf _ hnode _

theorem twin_submoduleParam {type type' : Definition} (htype : Paired K m m' type type')
    {p q : Param} (hpq : Twin N p q) :
    Found N (submoduleParam type own p) (submoduleParam type' own' q) := by
  have hnode := Param.Twin.node hpq
  have hfound := hown.param? q.name
  unfold submoduleParam
  rw [Param.Twin.name hpq, Param.Twin.type hpq, htype.matched.qname]
  generalize own.param? q.name = x at hfound ⊢
  generalize own'.param? q.name = y at hfound ⊢
  split
  · exact found_finding hnode _
  · cases hfound <;> exact found_findingIf _ hnode _

theorem twin_submoduleGate {type type' : Definition} (htype : Paired K m m' type type')
    {g k : Gate} (hgk : Twin N g k) :
    Found N (submoduleGate type own g) (submoduleGate type' own' k) := by
  have hnode := Gate.Twin.node hgk
  have hfound := hown.gate? k.name
  unfold submoduleGate
  rw [Gate.Twin.name hgk, htype.matched.qname]
  generalize own.gate? k.name = x at hfound ⊢
  generalize own'.gate? k.name = y at hfound ⊢
  cases hfound with
  | none => exact found_finding hnode _
  | some hxy =>
    dsimp only
    rw [hxy.isVector]
    exact found_findingIf _ hnode _

end Members

/-- What repeats does so on both sides, at corresponding nodes. -/
theorem twin_repeated (problem : String → Problem) (seen : List String)
    {as bs : List (String × NodeId)}
    (h : List.Forall₂ (fun a b => a.1 = b.1 ∧ N a.2 b.2) as bs) :
    Found N (repeated problem seen as) (repeated problem seen bs) := by
  induction h generalizing seen with
  | nil => exact .nil
  | @cons a b as bs hab _ ih =>
    obtain ⟨name, node⟩ := a
    obtain ⟨name', node'⟩ := b
    obtain ⟨rfl, hnode⟩ : name = name' ∧ N node node' := hab
    rw [repeated, repeated]
    exact List.rel_append (found_findingIf _ hnode _) (ih _)

theorem twin_gateUse (hn : N n n') (role : Role) (r : GateRef) {g k : InheritedGate}
    (hgk : g.Alike k) : Found N (gateUse n role r g.decl) (gateUse n' role r k.decl) := by
  have hfacing : ∀ effective required : GateDirection,
      Found N (facing n r.base effective required) (facing n' r.base effective required) := by
    intro effective required
    unfold facing
    split
    · exact .nil
    · split
      · exact found_finding hn _
      · split <;> exact found_finding hn _
  unfold gateUse
  rw [hgk.direction, hgk.isVector]
  cases k.decl.direction with
  | none => exact .nil
  | some declared =>
    dsimp only
    split
    · exact found_finding hn _
    · exact List.rel_append (List.rel_append (hfacing _ _) (found_findingIf _ hn _))
        (found_findingIf _ hn _)

/-! ### Checks that ask -/

section Types

variable (T : m.Twins K m') {d e : Definition} (h : Paired K m m' d e)
include T h

/-- A name in the text is told unknown, or checked further, on both sides. -/
theorem twin_reference {r r' : TypeRef} (hr : Twin N r r') {f g : Definition → List Finding}
    (hfg : ∀ x y, Paired K m m' x y → Found N (f x) (g y)) :
    Simulates K m m' (Found N) (reference m d r f) (reference m' e r' g) := by
  unfold reference
  rw [TypeRef.Twin.name hr]
  refine .bind (T.lookup h.matched.key r'.name) fun x y hxy => ?_
  cases hxy with
  | none => exact .pure (found_finding (TypeRef.Twin.node hr) _)
  | some hxy => exact .pure (hfg _ _ hxy)

theorem twin_bases :
    Simulates K m m' (Found (nodesOf K d.key.file e.key.file)) (bases m d) (bases m' e) := by
  have hbases := h.matched.alike.bases
  have hwrong := twin_collect (fun r r' hr => twin_reference T h hr
    (f := fun base => findingIf (!mayExtend d.kind base.kind) r.node
      (.wrongBase d.kind d.name base.kind base.qname))
    (g := fun base => findingIf (!mayExtend e.kind base.kind) r'.node
      (.wrongBase e.kind e.name base.kind base.qname)) fun x y hxy => by
        rw [h.matched.kind, h.matched.name, hxy.matched.kind, hxy.matched.qname]
        exact found_findingIf _ (TypeRef.Twin.node hr) _) hbases
  unfold bases
  refine .bind hwrong fun found found' hfound => .pure (List.rel_append ?_ hfound)
  rw [h.matched.kind, h.matched.name]
  generalize d.decl.bases = rs at hbases ⊢
  generalize e.decl.bases = ss at hbases ⊢
  cases hbases with
  | nil => exact .nil
  | cons _ hmore =>
    cases hmore with
    | nil => exact .nil
    | cons hsecond _ => exact found_findingIf _ (TypeRef.Twin.node hsecond) _

theorem twin_interfaces : Simulates K m m' (Found (nodesOf K d.key.file e.key.file))
    (interfaces m d) (interfaces m' e) := by
  have hrefs := h.matched.alike.interfaces
  have hcollected := twin_collect (fun r r' hr => twin_reference T h hr
    (f := fun interface => findingIf (decide (interface.kind ≠ interfaceKind d.kind)) r.node
      (.notAnInterface interface.qname (interfaceKind d.kind)))
    (g := fun interface => findingIf (decide (interface.kind ≠ interfaceKind e.kind)) r'.node
      (.notAnInterface interface.qname (interfaceKind e.kind))) fun x y hxy => by
        rw [h.matched.kind, hxy.matched.kind, hxy.matched.qname]
        exact found_findingIf _ (TypeRef.Twin.node hr) _) hrefs
  unfold interfaces
  rw [show d.kind.isInterface = e.kind.isInterface by rw [h.matched.kind]]
  generalize d.decl.interfaces = rs at hrefs hcollected ⊢
  generalize e.decl.interfaces = ss at hrefs hcollected ⊢
  cases e.kind.isInterface with
  | false => exact hcollected
  | true =>
    cases hrefs with
    | nil => exact hcollected
    | cons hfirst _ => exact .pure (found_finding (TypeRef.Twin.node hfirst) _)

/-- What a type owes to an interface, it owes on both sides. -/
theorem twin_conformsTo (project : String) {own own' : Members} (hown : own.Alike K m m' own')
    (interface : String) : Simulates K m m' (Found (nodesOf K d.key.file e.key.file))
      (conformsTo m project d own interface) (conformsTo m' project e own' interface) := by
  have hfound := option_rel_filter (T.innerOrToplevel? interface project)
    (p := fun i => i.kind.isInterface) (q := fun i => i.kind.isInterface)
    fun i j hij => by rw [hij.matched.kind]
  unfold conformsTo
  generalize (m.innerOrToplevel? interface project).filter _ = x at hfound ⊢
  generalize (m'.innerOrToplevel? interface project).filter _ = y at hfound ⊢
  cases hfound with
  | none => exact .pure .nil
  | some hij =>
    refine .bind (T.members hij) fun required required' hrequired => .pure ?_
    exact List.rel_append
      (forall₂_flatMap hrequired.params fun _ _ hpq =>
        twin_requiredParam hown h.matched.key interface hpq)
      (forall₂_flatMap hrequired.gates fun _ _ hgk =>
        twin_requiredGate hown h.matched.key interface hgk)

theorem twin_conformance {own own' : Members} (hown : own.Alike K m m' own') :
    Simulates K m m' (Found (nodesOf K d.key.file e.key.file)) (conformance m d own)
      (conformance m' e own') := by
  have hproject : m.projectFor? d.context = m'.projectFor? e.context := T.projectOf? h.matched.key
  unfold conformance
  rw [h.matched.kind, hproject, hown.interfaces]
  split
  · exact .pure .nil
  · cases m'.projectFor? e.context with
    | none => exact .pure .nil
    | some project =>
      refine twin_collect (R := Eq) (fun i j hij => ?_) (List.forall₂_same.mpr fun _ _ => rfl)
      subst hij
      exact twin_conformsTo T h project hown i

theorem twin_submodule {s t : Submodule} (hst : Twin (nodesOf K d.key.file e.key.file) s t) :
    Simulates K m m' (Found (nodesOf K d.key.file e.key.file)) (submodule m d s)
      (submodule m' e t) := by
  have halike := Submodule.Twin.alike hst
  have hnode := TypeRef.Twin.node halike.type
  unfold submodule
  rw [TypeRef.Twin.name halike.type, halike.like]
  refine .bind (T.lookup h.matched.key t.type.name) fun x y hxy => ?_
  cases hxy with
  | none => exact .pure (found_finding hnode _)
  | @some x y hxy =>
    dsimp only
    rw [hxy.matched.kind, hxy.matched.qname]
    split
    · exact .pure (found_finding hnode _)
    · split
      · exact .pure (found_finding hnode _)
      · refine .bind (T.members hxy) fun all all' hall => .pure ?_
        exact List.rel_append
          (forall₂_flatMap halike.params fun _ _ hpq => twin_submoduleParam hall hxy hpq)
          (forall₂_flatMap halike.gates fun _ _ hgk => twin_submoduleGate hall hxy hgk)

omit T h in
/-- Along corresponding chains of base types a submodule is found in both or in neither. -/
theorem twin_submoduleAlong {ds es : List Definition} (hchain : List.Forall₂ (Paired K m m') ds es)
    (name : String) : Option.Rel (fun s t => ∃ N, Twin N s t) (submoduleAlong ds name)
      (submoduleAlong es name) := by
  refine forall₂_findSome? hchain fun x y hxy => ?_
  have hfound := hxy.matched.submodule? name
  generalize x.submodule? name = s at hfound ⊢
  generalize y.submodule? name = t at hfound ⊢
  cases hfound with
  | none => exact .none
  | some hst => exact .some ⟨_, hst⟩

/-- An end of a connection means the same on both sides. -/
theorem twin_endpoint {all all' : Members} (hall : all.Alike K m m' all') (hn : N n n') (r : GateRef)
    (role : Role) : Simulates K m m' (Found N) (endpoint m d all n r role)
      (endpoint m' e all' n' r role) := by
  unfold endpoint
  cases r.module with
  | none =>
    have hgate := hall.gate? r.base
    dsimp only
    generalize all.gate? r.base = x at hgate ⊢
    generalize all'.gate? r.base = y at hgate ⊢
    cases hgate with
    | none => exact .pure (found_finding hn _)
    | some hgk => exact .pure (twin_gateUse hn role r hgk)
  | some name =>
    have hsubmodule := twin_submoduleAlong hall.chain name
    dsimp only
    generalize submoduleAlong all.chain name = x at hsubmodule ⊢
    generalize submoduleAlong all'.chain name = y at hsubmodule ⊢
    cases hsubmodule with
    | none => exact .pure (found_finding hn _)
    | @some s t hst =>
      obtain ⟨_, hst⟩ := hst
      have halike := Submodule.Twin.alike hst
      have hindex : Found N (submoduleIndex n name s r.moduleIndexed)
          (submoduleIndex n' name t r.moduleIndexed) := by
        unfold submoduleIndex
        rw [halike.vectorSize]
        exact List.rel_append (found_findingIf _ hn _) (found_findingIf _ hn _)
      dsimp only
      rw [TypeRef.Twin.name halike.type]
      refine .bind (T.lookup h.matched.key t.type.name) fun x y hxy => ?_
      cases hxy with
      | none => exact .pure hindex
      | some hxy =>
        refine .bind (T.members hxy) fun members members' hmembers => ?_
        have hgate := hmembers.gate? r.base
        generalize members.gate? r.base = x at hgate ⊢
        generalize members'.gate? r.base = y at hgate ⊢
        cases hgate with
        | none => exact .pure (List.rel_append hindex (found_finding hn _))
        | some hgk => exact .pure (List.rel_append hindex (twin_gateUse hn role r hgk))

theorem twin_channel {c c' : ChannelSpec} (hc : Twin N c c') :
    Simulates K m m' (Found N) (channel m d c) (channel m' e c') := by
  have halike := ChannelSpec.Twin.alike hc
  have htype := halike.type
  unfold channel
  rw [halike.like]
  generalize c.type = x at htype ⊢
  generalize c'.type = y at htype ⊢
  cases htype with
  | none => exact .pure .nil
  | some hr =>
    refine twin_reference T h hr fun x y hxy => ?_
    rw [hxy.matched.kind, hxy.matched.qname]
    split
    · exact found_findingIf _ (TypeRef.Twin.node hr) _
    · exact found_findingIf _ (TypeRef.Twin.node hr) _

/-- A connection is told to be wrong for the same reasons on both sides. -/
theorem twin_connection {all all' : Members} (hall : all.Alike K m m' all') {c c' : Connection}
    (hc : Twin N c c') : Simulates K m m' (Found N) (connection m d all c)
      (connection m' e all' c') := by
  have halike := Connection.Twin.alike hc
  have hchannel := halike.channel
  unfold connection
  rw [halike.src, halike.dest, halike.arrow]
  dsimp only
  refine .bind (twin_endpoint T h hall halike.node c'.src _) fun src src' hsrc =>
    .bind (twin_endpoint T h hall halike.node c'.dest _) fun dest dest' hdest => ?_
  generalize c.channel = x at hchannel ⊢
  generalize c'.channel = y at hchannel ⊢
  cases hchannel with
  | none =>
    exact .bind (.pure (R := Found N) .nil) fun link link' hlink =>
      .pure (List.rel_append (List.rel_append hsrc hdest) hlink)
  | some hspec =>
    exact .bind (twin_channel T h hspec) fun link link' hlink =>
      .pure (List.rel_append (List.rel_append hsrc hdest) hlink)

omit T in
/-- The members of a type are told to clash on both sides. -/
theorem twin_ownMembers {all all' : Members} (hall : all.Alike K m m' all') :
    Found (nodesOf K d.key.file e.key.file) (ownMembers d all) (ownMembers e all') := by
  have halike := h.matched.alike
  unfold ownMembers
  rw [h.matched.qname]
  refine List.rel_append (List.rel_append (List.rel_append ?_ ?_) ?_) ?_
  · exact twin_params hall e.qname [] halike.params
  · exact twin_gates hall e.qname [] halike.gates
  · refine twin_repeated _ [] (forall₂_map halike.submodules fun s t hst => ?_)
    exact ⟨(Submodule.Twin.alike hst).name, (Submodule.Twin.alike hst).node⟩
  · refine twin_repeated _ [] (forall₂_map halike.types fun t u htu => ?_)
    exact ⟨(TypeDecl.Twin.alike htu).name, (TypeDecl.Twin.alike htu).node⟩

/-- **Corresponding types have the same problems at corresponding nodes.** -/
theorem twin_ownType : Simulates K m m' (Found (nodesOf K d.key.file e.key.file)) (ownType m d)
    (ownType m' e) := by
  have halike := h.matched.alike
  unfold ownType
  rw [h.matched.kind]
  refine .bind (twin_bases T h) fun bases bases' hbases =>
    .bind (twin_interfaces T h) fun interfaces interfaces' hinterfaces =>
      .bind (T.members h) fun all all' hall => ?_
  rw [hall.cycle, h.matched.qname]
  have hinherited := found_finding (N := nodesOf K d.key.file e.key.file) h.matched.key
    (.inheritanceCycle e.qname)
  refine .ite_bind (.pure hinherited) (twin_conformance T h hall) fun inheritance inheritance' hi => ?_
  refine .ite_bind (twin_collect (fun s t hst => twin_submodule T h hst) halike.submodules)
    (.pure .nil) fun submodules submodules' hsubmodules => ?_
  refine .ite_bind (twin_collect (fun c c' hc => twin_connection T h hall hc) halike.connections)
    (.pure .nil) fun connections connections' hconnections => .pure ?_
  exact List.rel_append (List.rel_append (List.rel_append (List.rel_append (List.rel_append hbases
    hinterfaces) hi) (twin_ownMembers h hall)) hsubmodules) hconnections

end Types

theorem twin_package {tree tree' : Tree} (h : tree.Alike N tree') (expected : Option String) :
    Found N (package tree expected) (package tree' expected) := by
  unfold package
  rw [h.packageName?]
  cases expected with
  | none => exact .nil
  | some expected =>
    dsimp only
    split
    · exact .nil
    · exact .cons ⟨h.packageNode, rfl⟩ .nil

/-- **Corresponding files have the same problems at corresponding nodes.** -/
theorem twin_fileFindings (T : m.Twins K m') {file file' : FileId} {tree tree' : Tree}
    (htree : tree.Alike (nodesOf K file file') tree')
    (htypes : List.Forall₂ (fun d e => Paired K m m' d e ∧ d.key.file = file ∧ e.key.file = file')
      (order (m.index.fileTypes file)) (order (m'.index.fileTypes file')))
    (expected : Option String) : Simulates K m m' (Found (nodesOf K file file'))
      (fileFindings m file tree expected) (fileFindings m' file' tree' expected) := by
  refine .bind (twin_collect (fun d e hde => ?_) htypes) fun types types' h =>
    .pure (List.rel_append (twin_package htree expected) h)
  obtain ⟨hpaired, rfl, rfl⟩ := hde
  exact twin_ownType T hpaired

end Check

/-! ### Diagnostics -/

namespace Diagnostic

/-- The diagnostic without the numbers of its file and node. -/
def unnumbered (d : Diagnostic) : Diagnostic :=
  { d with file := .builtin, node := none }

/-- Diagnostics that say the same about corresponding nodes of corresponding files. -/
structure Alike (F : FileId → FileId → Prop) (K : TypeKey → TypeKey → Prop) (a b : Diagnostic) :
    Prop where
  file : F a.file b.file
  node : Option.Rel (nodesOf K a.file b.file) a.node b.node
  unnumbered : a.unnumbered = b.unnumbered

variable {F : FileId → FileId → Prop} {K : TypeKey → TypeKey → Prop}

/-- Diagnostics that are alike read the same. -/
theorem Alike.message {a b : Diagnostic} (h : Alike F K a b) : a.message = b.message :=
  (congrArg Diagnostic.message h.unnumbered :)

/-- Diagnostics follow their nodes to the same spans. -/
theorem Alike.locate {a b : Diagnostic} (h : Alike F K a b) {tree tree' : Tree}
    (hspan : ∀ n n', nodesOf K a.file b.file n n' → tree.spanOf? n = tree'.spanOf? n') :
    Alike F K (a.locate tree) (b.locate tree') := by
  have hsame : a.node.bind tree.spanOf? = b.node.bind tree'.spanOf? := by
    have hnode := h.node
    generalize a.node = x at hnode ⊢
    generalize b.node = y at hnode ⊢
    cases hnode with
    | none => rfl
    | some hn => exact hspan _ _ hn
  unfold Diagnostic.locate
  rw [hsame]
  cases b.node.bind tree'.spanOf? with
  | none => exact h
  | some span =>
    refine ⟨h.file, h.node, ?_⟩
    exact congrArg (fun d : Diagnostic => { d with span }) h.unnumbered

/-- A problem at corresponding nodes of corresponding files makes diagnostics that are alike. -/
theorem alike_diagnostic (problem : Problem) {file file' : FileId} (hfile : F file file')
    {node node' : Option NodeId} (hnode : Option.Rel (nodesOf K file file') node node') :
    Alike F K (problem.diagnostic file node) (problem.diagnostic file' node') :=
  ⟨hfile, hnode, rfl⟩

end Diagnostic

namespace Check

variable {F : FileId → FileId → Prop} {K : TypeKey → TypeKey → Prop} {m m' : Model}

/-- Corresponding files of corresponding models are given diagnostics that are alike, in order. -/
theorem twin_file (T : m.Twins K m') {file file' : FileId} (hfile : F file file') {tree tree' : Tree}
    (htree : tree.Alike (nodesOf K file file') tree')
    (hspan : ∀ n n', nodesOf K file file' n n' → tree.spanOf? n = tree'.spanOf? n')
    (htypes : List.Forall₂ (fun d e => Paired K m m' d e ∧ d.key.file = file ∧ e.key.file = file')
      (order (m.index.fileTypes file)) (order (m'.index.fileTypes file')))
    (expected : Option String) : Simulates K m m' (List.Forall₂ (Diagnostic.Alike F K))
      (Check.file m file tree expected) (Check.file m' file' tree' expected) := by
  refine .bind (twin_fileFindings T htree htypes expected) fun found found' hfound => .pure ?_
  refine forall₂_map hfound fun f g hfg => ?_
  rw [hfg.problem]
  exact (Diagnostic.alike_diagnostic g.problem hfile hfg.node).locate hspan

/-- Definitions that share a name give the same diagnostics, if their files have the same paths. -/
theorem twin_duplicatesOf {pathOf pathOf' : FileId → String}
    (hfiles : ∀ a b, F a b → a.isBuiltin = b.isBuiltin ∧ pathOf a = pathOf' b)
    (hkeys : ∀ k k', K k k' → F k.file k'.file) (qname : String) {ds es : List Definition}
    (h : List.Forall₂ (Paired K m m') ds es) :
    List.Forall₂ (Diagnostic.Alike F K) (duplicatesOf pathOf qname ds)
      (duplicatesOf pathOf' qname es) := by
  have hagainst : ∀ {x y z w : Definition}, Paired K m m' x y → Paired K m m' z w →
      List.Forall₂ (Diagnostic.Alike F K)
        (if x.isBuiltin then []
          else if z.isBuiltin then
            [(Problem.builtinRedefined x.kind qname).diagnostic x.file (some x.key.node)]
          else [(Problem.alreadyDefined x.kind qname (pathOf z.file)).diagnostic x.file
            (some x.key.node)])
        (if y.isBuiltin then []
          else if w.isBuiltin then
            [(Problem.builtinRedefined y.kind qname).diagnostic y.file (some y.key.node)]
          else [(Problem.alreadyDefined y.kind qname (pathOf' w.file)).diagnostic y.file
            (some y.key.node)]) := by
    intro x y z w hxy hzw
    have hfile := hkeys _ _ hxy.matched.key
    have hfile' := hkeys _ _ hzw.matched.key
    rw [show x.isBuiltin = y.isBuiltin from (hfiles _ _ hfile).1,
      show z.isBuiltin = w.isBuiltin from (hfiles _ _ hfile').1,
      show pathOf z.file = pathOf' w.file from (hfiles _ _ hfile').2, hxy.matched.kind]
    split
    · exact .nil
    · split
      · exact .cons (Diagnostic.alike_diagnostic _ hfile (.some hxy.matched.key)) .nil
      · exact .cons (Diagnostic.alike_diagnostic _ hfile (.some hxy.matched.key)) .nil
  cases h with
  | nil => exact .nil
  | cons hfirst hmore =>
    cases hmore with
    | nil => exact .nil
    | cons hsecond hmore =>
      refine List.rel_append (hagainst hfirst hsecond) ?_
      exact forall₂_flatMap (.cons hsecond hmore) fun x y hxy => hagainst hxy hfirst

/-- Corresponding tables report the same rivals, in order. -/
theorem twin_duplicates {pathOf pathOf' : FileId → String}
    (hfiles : ∀ a b, F a b → a.isBuiltin = b.isBuiltin ∧ pathOf a = pathOf' b)
    (hkeys : ∀ k k', K k k' → F k.file k'.file) {t u : ProjectTable}
    (h : t.Matches (Paired K m m') u) :
    List.Forall₂ (Diagnostic.Alike F K) (duplicates t pathOf) (duplicates u pathOf') := by
  refine forall₂_flatMap h.duplicates fun e e' hee => ?_
  rw [hee.1]
  exact twin_duplicatesOf hfiles hkeys e'.1 hee.2

end Check

end NedWorkspace
