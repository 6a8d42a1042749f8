/-
# Declarations that are written are read

A type declaration is read with the sections of its body in any order and with inner types to any depth,
and a file with its declarations in any order.
-/

import NedWorkspace.Proofs.Syntax.Accept.Link

namespace NedWorkspace

open Rule Stretch Echoing

/-! ### First tokens -/

/-- A word that declares a type may begin a member. -/
theorem Kind.beginsMember_of_isTypeWord {k : Kind} (h : k.isTypeWord = true) : k.BeginsMember := by
  unfold Kind.isTypeWord at h
  split at h
  · exact beginsMember_keyword rfl
  · exact beginsMember_keyword rfl
  · exact beginsMember_keyword rfl
  · exact beginsMember_keyword rfl
  · exact beginsMember_keyword rfl
  · exact beginsMember_keyword rfl
  · exact absurd h Bool.false_ne_true

/-- A submodule begins with its name. -/
theorem Submodule.Written.exists_cons {s : Submodule} {ts : List Token} (h : s.Written ts) :
    ∃ t more, ts = t :: more ∧ t.kind = .ident := by
  obtain ⟨ident, _⟩ := h
  exact ⟨_, _, rfl, ident⟩

/-- A type begins with the word for its kind. -/
theorem TypeDecl.Written.exists_cons {d : TypeDecl} {ts : List Token} (h : d.Written ts) :
    ∃ t more, ts = t :: more ∧ t.kind.isTypeWord = true := by
  cases h with
  | mk word => exact ⟨_, _, rfl, word⟩

/-- The content of a body never begins with what would go on with the member before it. -/
theorem TypeContent.Written.clear {sec : BodySection} {content : TypeContent} {ts : List Token}
    (h : content.Written sec ts) {c : Token} (hc : c.kind = .mark .rbrace) (us : List Token) :
    Token.Clear statementBars (ts ++ c :: us) := by
  cases h with
  | nil => simp [hc, statementBars]
  | header header _ =>
    obtain ⟨t, more, rfl, hopened⟩ := header.exists_cons
    exact Token.clear_cons.mpr (BodySection.notBar_of_ofKind? hopened).2
  | param param _ =>
    obtain ⟨t, more, rfl, hbegins, _⟩ := param.exists_cons
    exact Token.clear_cons.mpr hbegins.notBar
  | property _ property _ =>
    obtain ⟨t, more, rfl, hat⟩ := property.exists_cons
    exact Token.clear_cons.mpr (hat ▸ Kind.beginsMember_atSign.notBar)
  | gate gate _ =>
    obtain ⟨t, more, rfl, hbegins⟩ := gate.exists_cons
    exact Token.clear_cons.mpr hbegins.notBar
  | type type _ =>
    obtain ⟨t, more, rfl, hword⟩ := type.exists_cons
    exact Token.clear_cons.mpr (Kind.beginsMember_of_isTypeWord hword).notBar
  | submodule submodule _ =>
    obtain ⟨t, more, rfl, hident⟩ := submodule.exists_cons
    exact Token.clear_cons.mpr (hident ▸ Kind.beginsMember_ident.notBar)
  | link link _ =>
    obtain ⟨t, more, rfl, hbegins⟩ := link.exists_cons
    exact Token.clear_cons.mpr hbegins.notBar

namespace TypeDecl

theorem Echo.spanned {T : String → String → Prop} {t u : TypeDecl} (h : t.Echo T u) (span : Span) :
    TypeDecl.Echo T { t with span } u := by
  cases h with
  | mk details inner => exact .mk { details with } inner

/-- A declaration that says more. -/
def extended (t : TypeDecl) (c : TypeContent) : TypeDecl :=
  { t with
    params := t.params ++ c.params
    gates := t.gates ++ c.gates
    types := t.types ++ c.types
    submodules := t.submodules ++ c.submodules
    connections := t.connections ++ c.connections
    allowUnconnected := t.allowUnconnected || c.allowUnconnected
    properties := t.properties ++ c.properties }

/-- A body without content adds nothing. -/
theorem extended_empty (t : TypeDecl) : t.extended {} = t := by
  simp only [extended, List.append_nil, Bool.or_false]
  cases t
  rfl

/-- A declaration up to its body, with the properties that stand there. -/
def headed (t : TypeDecl) (properties : List Property) : TypeDecl :=
  { node := t.node, kind := t.kind, name := t.name, bases := t.bases, interfaces := t.interfaces,
    properties, span := t.span }

/-- The properties in front of the sections come first. -/
theorem headed_extended {t : TypeDecl} {c : TypeContent} {properties : List Property}
    (h : t.content = { c with properties := properties ++ c.properties }) :
    (t.headed properties).extended c = t := by
  simp only [content, TypeContent.mk.injEq] at h
  obtain ⟨hparams, hgates, htypes, hsubmodules, hconnections, hallow, hproperties⟩ := h
  simp only [extended, headed, ← hparams, ← hgates, ← htypes, ← hsubmodules, ← hconnections, ← hallow,
    ← hproperties, List.nil_append, Bool.false_or]
  cases t
  rfl

end TypeDecl

namespace Parser

variable {ts us : List Token}

/-! ### Heads -/

/-- A list of references behind a word, if there is one. -/
theorem refs_takes {α : Type} {k : Kind} {rs : List TypeRef} {final : List Token} {R : α → Prop}
    {f : List TypeRef → Parser α}
    (h : Clause (After k (SepBy (.mark .comma) TypeRef.Written)) rs ts)
    (hus : Token.Clear [k, .mark .dot, .mark .comma] us)
    (hf : ∀ found, Echo Eq found rs → Takes us final R (f found)) :
    Takes (ts ++ us) final R (do
      let refs ← do
        if ← eat k then typeRefs else pure []
      f refs) := by
  cases h with
  | none => exact .bind_eq (eat_takes_none (hus.ne (by simp))) (.bind_eq (.pure rfl) (hf [] .nil))
  | some h =>
    obtain ⟨mark, refs⟩ := h
    exact .bind_eq (eat_takes mark) (.bind (typeRefs_takes refs (hus.mono (by simp))) hf)

/-- The head of a type is read as it is written. -/
theorem typeHead_takes {t : TypeDecl} {tWord tName : Token} {tBases tInterfaces tProperties : List Token}
    {first : List Property} (kind : typeKind tWord.kind = t.kind)
    (ident : tName.kind = .ident) (name : tName.text = t.name)
    (bases : Clause (After (.keyword .extendsWord) (SepBy (.mark .comma) TypeRef.Written)) t.bases tBases)
    (interfaces : Clause (After (.keyword .like) (SepBy (.mark .comma) TypeRef.Written)) t.interfaces
      tInterfaces)
    (properties : Many Property.Written first tProperties)
    (hus : ∀ k, Token.next? us = some k → k = .mark .lbrace ∨ k = .mark .semicolon) :
    Takes (tWord :: tName :: (tBases ++ (tInterfaces ++ (tProperties ++ us)))) us
      (Echo Eq · (some (t.headed first))) typeHead := by
  have hclear {ks : List Kind} (hks : .mark .lbrace ∉ ks ∧ .mark .semicolon ∉ ks) :
      Token.Clear ks us := by
    intro k hk hnext
    obtain rfl | rfl := hus k hnext
    · exact hks.1 hk
    · exact hks.2 hk
  have hproperties {ks : List Kind}
      (hks : .mark .lbrace ∉ ks ∧ .mark .semicolon ∉ ks ∧ .mark .atSign ∉ ks) :
      Token.Clear ks (tProperties ++ us) :=
    (Property.Written.leads_many properties).clear_append (hclear ⟨hks.1, hks.2.1⟩)
      fun k hk heq => hks.2.2 (heq ▸ hk)
  have hinterfaces : Token.Clear [.keyword .extendsWord, .mark .dot, .mark .comma]
      (tInterfaces ++ (tProperties ++ us)) :=
    (interfaces.leads After.leads).clear_append (hproperties (by simp)) (by simp)
  refine .bind_eq kind?_takes (.andThen skipOne_takes fun _ => .andThen .newNode fun node =>
    .bind_eq (expectIdent_takes ident _) ?_)
  refine refs_takes bases hinterfaces fun bases' hbases => ?_
  refine refs_takes interfaces (hproperties (by simp)) fun interfaces' hinterfaces => ?_
  refine .bind (properties_takes properties (hclear (by simp))) fun found hfound => .pure (.some ?_)
  exact .mk ⟨kind, name, hbases, hinterfaces, .nil, .nil, .nil, .nil, rfl, hfound⟩ .nil

/-! ### Bodies -/

/-- The members of a body, from a place in a section on. -/
def typeBodyAt (sec : BodySection) (d : TypeDecl) : Parser TypeDecl :=
  ⟨typeBodyFrom sec d, reaches_typeBodyFrom sec d⟩

/-- A body ends where its closing brace is. -/
theorem typeBodyAt_close {c : Token} (hc : c.kind = .mark .rbrace) (sec : BodySection) (d : TypeDecl) :
    Takes (c :: us) (c :: us) (· = d) (typeBodyAt sec d) := by
  intro s hs
  change (typeBodyFrom sec d s).1 = d ∧ (typeBodyFrom sec d s).2.rest = c :: us ∧
    (typeBodyFrom sec d s).2.errors = s.errors
  rw [typeBodyFrom_cons hs, if_pos hc]
  exact ⟨rfl, hs, rfl⟩

/-- A header opens its section, and the rest of the body is read in it. -/
theorem typeBodyAt_section {t : Token} {more final : List Token} {sec opened : BodySection}
    {d : TypeDecl} {Q R : TypeDecl → Prop} (hopened : BodySection.ofKind? t.kind = some opened)
    (hsection : Takes (t :: more) us Q (typeSection opened d))
    (hrest : ∀ d', Q d' → Takes us final R (typeBodyAt opened d')) :
    Takes (t :: more) final R (typeBodyAt sec d) := by
  intro s hs
  obtain ⟨hfound, hafter, herrors⟩ := hsection s hs
  obtain ⟨hresult, hfinal, herrors'⟩ := hrest _ hfound _ hafter
  have hrun : (typeBodyAt sec d).run s =
      (typeBodyAt opened ((typeSection opened d).run s).1).run ((typeSection opened d).run s).2 := by
    change typeBodyFrom sec d s = _
    rw [typeBodyFrom_cons hs, if_neg (BodySection.notBar_of_ofKind? hopened).1, hopened]
    rfl
  rw [hrun]
  exact ⟨hresult, hfinal, herrors'.trans herrors⟩

/-- A member is read, and then the rest of the body. -/
theorem typeBodyAt_member {t : Token} {more final : List Token} {sec : BodySection} {d : TypeDecl}
    {Q R : TypeDecl → Prop} (hbegins : t.kind.BeginsMember)
    (hplain : sec = .types → t.kind.isTypeWord = false)
    (hmember : Takes (t :: more) us Q (plainMember sec d)) (hlt : us.length < (t :: more).length)
    (hrest : ∀ d', Q d' → Takes us final R (typeBodyAt sec d')) :
    Takes (t :: more) final R (typeBodyAt sec d) := by
  intro s hs
  obtain ⟨hfound, hafter, herrors⟩ := hmember s hs
  obtain ⟨hresult, hfinal, herrors'⟩ := hrest _ hfound _ hafter
  have hrun : (typeBodyAt sec d).run s =
      (typeBodyAt sec ((plainMember sec d).run s).1).run ((plainMember sec d).run s).2 := by
    change typeBodyFrom sec d s = _
    rw [typeBodyFrom_cons hs, if_neg hbegins.ne_rbrace, hbegins.notSection]
    dsimp only
    rw [if_neg fun hboth => Bool.false_ne_true ((hplain hboth.1).symm.trans hboth.2)]
    exact if_pos (by rw [hafter, hs]; exact hlt)
  rw [hrun]
  exact ⟨hresult, hfinal, herrors'.trans herrors⟩

/-- A member is read, and then what stands behind it. -/
theorem typeBodyAt_takes_member {t : Token} {more final : List Token} {sec : BodySection}
    {d base base' : TypeDecl} {content content' : TypeContent} (hbegins : t.kind.BeginsMember)
    (hplain : sec = .types → t.kind.isTypeWord = false)
    (hmember : Takes (t :: more ++ us) us (Echo Eq · base') (plainMember sec d))
    (hext : base'.extended content = base.extended content')
    (hrest : ∀ found, Echo Eq found base' →
      Takes us final (Echo Eq · (base'.extended content)) (typeBodyAt sec found)) :
    Takes (t :: more ++ us) final (Echo Eq · (base.extended content')) (typeBodyAt sec d) :=
  hext ▸ typeBodyAt_member hbegins hplain hmember (Token.length_lt_cons_append ..) hrest

section Members

variable {sec : BodySection} {d base : TypeDecl}

/-- A header is read as it is written, with its flag. -/
theorem typeSection_takes {opened : BodySection} {allow : Bool} (h : HeaderWritten opened allow ts)
    (hd : Echo Eq d base) (us : List Token) :
    Takes (ts ++ us) us (Echo Eq · { base with allowUnconnected := base.allowUnconnected || allow })
      (typeSection opened d) := by
  obtain ⟨t, more, rfl, -, hheader⟩ := sectionHeader_takes h us
  refine .andThen skipOne_takes fun _ => .bind hheader fun found hfound => .pure ?_
  exact .mk { hd.details with
    allowUnconnected := by rw [hfound, hd.details.allowUnconnected] } hd.types

/-- A parameter in a body is added to the type. -/
theorem plainMember_takes_param {p : Param} (h : p.Written ts) (hd : Echo Eq d base) (us : List Token) :
    Takes (ts ++ us) us (Echo Eq · { base with params := base.params ++ [p] })
      (plainMember .parameters d) := by
  have hread : Takes (ts ++ us) us (Echo Eq · (some p)) param := param_takes h
  obtain ⟨t, more, rfl, -, hat⟩ := h.exists_cons
  refine .bind_eq (at?_takes_false (by simpa using hat)) (.bind hread fun found hfound => .pure ?_)
  exact .mk { hd.details with
    params := List.rel_append hd.details.params (option_rel_toList hfound) } hd.types

/-- A property in a body is added to the type. -/
theorem plainMember_takes_property {p : Property} (place : sec = .parameters ∨ sec = .types)
    (h : PropertyStatement p ts) (hd : Echo Eq d base) (hus : Token.Clear statementBars us) :
    Takes (ts ++ us) us (Echo Eq · { base with properties := base.properties ++ [p] })
      (plainMember sec d) := by
  have hread := propertyStatement_takes h hus
  obtain ⟨t, more, rfl, hat⟩ := h.exists_cons
  have hproperty {found : Option Property} (hfound : Echo Eq found (some p)) :
      TypeDecl.Echo Eq { d with properties := d.properties ++ found.toList }
        { base with properties := base.properties ++ [p] } :=
    .mk { hd.details with
      properties := List.rel_append hd.details.properties (option_rel_toList hfound) } hd.types
  obtain rfl | rfl := place
  · exact .bind_eq (at?_takes_true hat) (.bind hread fun found hfound => .pure (hproperty hfound))
  · exact .bind_eq (at?_takes_true hat) (.bind hread fun found hfound => .pure (hproperty hfound))

/-- A gate in a body is added to the type. -/
theorem plainMember_takes_gate {g : Gate} (h : g.Written ts) (hd : Echo Eq d base) (us : List Token) :
    Takes (ts ++ us) us (Echo Eq · { base with gates := base.gates ++ [g] }) (plainMember .gates d) :=
  .bind (gate_takes h) fun _ hfound => .pure (.mk { hd.details with
    gates := List.rel_append hd.details.gates (option_rel_toList hfound) } hd.types)

/-- A submodule in a body is added to the type. -/
theorem plainMember_takes_submodule {s : Submodule} (h : s.Written ts) (hd : Echo Eq d base)
    (hus : Token.next? us ≠ some (.mark .semicolon)) :
    Takes (ts ++ us) us (Echo Eq · { base with submodules := base.submodules ++ [s] })
      (plainMember .submodules d) :=
  .bind (submodule_takes h hus) fun _ hfound => .pure (.mk { hd.details with
    submodules := List.rel_append hd.details.submodules (option_rel_toList hfound) } hd.types)

/-- Connections in a body are added to the type. -/
theorem plainMember_takes_link {cs : List Connection} (h : LinkWritten cs ts) (hd : Echo Eq d base)
    (hus : Token.next? us ≠ some (.mark .semicolon)) :
    Takes (ts ++ us) us (Echo Eq · { base with connections := base.connections ++ cs })
      (plainMember .connections d) :=
  .bind (link_takes h hus) fun _ hfound => .pure (.mk { hd.details with
    connections := List.rel_append hd.details.connections hfound } hd.types)

end Members

/-- A type inside is read, and then the rest of the section. -/
theorem typeBodyAt_type {t : Token} {more final : List Token} {d : TypeDecl}
    {Q : Option TypeDecl → Prop} {R : TypeDecl → Prop} (hword : t.kind.isTypeWord = true)
    (htype : Takes (t :: more) us Q typeDecl) (hlt : us.length < (t :: more).length)
    (hrest : ∀ found, Q found →
      Takes us final R (typeBodyAt .types { d with types := d.types ++ found.toList })) :
    Takes (t :: more) final R (typeBodyAt .types d) := by
  intro s hs
  obtain ⟨hfound, hafter, herrors⟩ := htype s hs
  obtain ⟨hresult, hfinal, herrors'⟩ := hrest _ hfound _ hafter
  have hbegins := Kind.beginsMember_of_isTypeWord hword
  have hrun : (typeBodyAt .types d).run s =
      (typeBodyAt .types { d with types := d.types ++ (typeDecl.run s).1.toList }).run
        (typeDecl.run s).2 := by
    change typeBodyFrom .types d s = _
    rw [typeBodyFrom_cons hs, if_neg hbegins.ne_rbrace, hbegins.notSection]
    dsimp only
    rw [if_pos ⟨rfl, hword⟩]
    exact if_pos (by change (typeDecl.run s).2.rest.length < _; rw [hafter, hs]; exact hlt)
  rw [hrun]
  exact ⟨hresult, hfinal, herrors'.trans herrors⟩

theorem bodiless_takes {t : Token} (ends : t.kind = .mark .semicolon) :
    Takes (t :: us) us (fun _ => True) bodiless :=
  .bind_eq (eat_takes ends) (.pure trivial)

theorem bodyEnd_takes {c : Token} {tEnd : List Token} {ended : Bool} (closing : c.kind = .mark .rbrace)
    (ends : Flag (.mark .semicolon) ended tEnd) (hus : Token.next? us ≠ some (.mark .semicolon)) :
    Takes (c :: (tEnd ++ us)) us (fun _ => True) bodyEnd :=
  .andThen (expect_takes closing _) fun _ => .andThen (eat_takes_flag ends hus) fun _ => .pure trivial

/-- A type may end at a semicolon. -/
theorem typeDecl_takes_bodiless {base : TypeDecl} {t : Token}
    (hhead : Takes ts (t :: us) (Echo Eq · (some base)) typeHead) (ends : t.kind = .mark .semicolon) :
    Takes ts us (Echo Eq · (some base)) typeDecl := by
  intro s hs
  obtain ⟨hfound, hafter, herrors⟩ := hhead s hs
  obtain ⟨head, hhead, hecho⟩ := exists_of_option_rel hfound
  have hnone : (typeHead.run s).2.kind? ≠ some (.mark .lbrace) := by
    rw [Cursor.kind?_eq_next?, hafter]
    simp [ends]
  obtain ⟨-, hrest, herrors'⟩ := bodiless_takes ends _ hafter
  change Echo Eq (typeDeclFrom s).1 (some base) ∧ (typeDeclFrom s).2.rest = us ∧
    (typeDeclFrom s).2.errors = s.errors
  rw [typeDeclFrom_of_no_brace hhead hnone]
  exact ⟨.some (hecho.spanned _), hrest, herrors'.trans herrors⟩

/-- A type with a body is its head, with the content of the body added. -/
theorem typeDecl_takes_body {base d : TypeDecl} {o : Token} {body behind : List Token}
    (hhead : Takes ts (o :: body) (Echo Eq · (some base)) typeHead) (opening : o.kind = .mark .lbrace)
    (hbody : ∀ head, Echo Eq head base →
      Takes body behind (Echo Eq · d) (typeBodyAt .parameters head))
    (hend : Takes behind us (fun _ => True) bodyEnd) :
    Takes ts us (Echo Eq · (some d)) typeDecl := by
  intro s hs
  obtain ⟨hfound, hafter, herrors⟩ := hhead s hs
  obtain ⟨head, hhead, hecho⟩ := exists_of_option_rel hfound
  have hopen : (typeHead.run s).2.kind? = some (.mark .lbrace) := by
    rw [Cursor.kind?_eq_next?, hafter, Token.next?_cons, opening]
  have hnext : (typeHead.run s).2.next.rest = body := by
    rw [Cursor.rest_next, hafter, List.tail_cons]
  obtain ⟨hdecl, hbehind, herrors'⟩ := hbody head hecho _ hnext
  obtain ⟨-, hrest, herrors''⟩ := hend _ hbehind
  change Echo Eq (typeDeclFrom s).1 (some d) ∧ (typeDeclFrom s).2.rest = us ∧
    (typeDeclFrom s).2.errors = s.errors
  rw [typeDeclFrom_of_brace hhead hopen]
  exact ⟨.some (hdecl.spanned _), hrest,
    herrors''.trans (herrors'.trans ((Cursor.errors_next _).trans herrors))⟩

mutual

/-- A type is read as it is written, with all that is inside of it. -/
theorem typeDecl_takes {d : TypeDecl} {ts us : List Token} (h : d.Written ts)
    (hus : Token.next? us ≠ some (.mark .semicolon)) :
    Takes (ts ++ us) us (Echo Eq · (some d)) typeDecl := by
  cases h with
  | @mk _ tWord tName tBases tInterfaces tProperties tBody first content word kind ident name bases
      interfaces properties body holds =>
    have hextended := TypeDecl.headed_extended holds
    simp only [List.cons_append, List.append_assoc]
    cases body with
    | @absent t ends =>
      rw [TypeDecl.extended_empty] at hextended
      rw [← hextended]
      exact typeDecl_takes_bodiless (typeHead_takes kind ident name bases interfaces properties
        (by rintro _ ⟨⟩; exact .inr ends)) ends
    | @given _ o c ts tEnd ended opening written closing ends =>
      simp only [List.cons_append, List.append_assoc]
      refine typeDecl_takes_body (typeHead_takes kind ident name bases interfaces properties
        (by rintro _ ⟨⟩; exact .inl opening)) opening (fun head hhead => ?_) (bodyEnd_takes closing ends hus)
      rw [← hextended]
      exact typeBodyAt_takes written closing head _ hhead
termination_by 2 * ts.length

/-- The content of a body is read as it is written, from its section on. -/
theorem typeBodyAt_takes {sec : BodySection} {content : TypeContent} {ts us : List Token}
    (h : content.Written sec ts) {c : Token} (hc : c.kind = .mark .rbrace) (d base : TypeDecl)
    (hd : Echo Eq d base) :
    Takes (ts ++ c :: us) (c :: us) (Echo Eq · (base.extended content)) (typeBodyAt sec d) := by
  cases h with
  | nil =>
    refine (typeBodyAt_close hc _ d).imp fun found hfound => ?_
    rw [hfound, TypeDecl.extended_empty]
    exact hd
  | @header _ opened allow content ts vs header rest =>
    have hsection := typeSection_takes header hd (vs ++ c :: us)
    obtain ⟨t, more, rfl, hopened⟩ := header.exists_cons
    have hext : ({ base with allowUnconnected := base.allowUnconnected || allow } : TypeDecl).extended
        content = base.extended { content with allowUnconnected := allow || content.allowUnconnected } := by
      simp only [TypeDecl.extended, Bool.or_assoc]
    rw [List.append_assoc, ← hext]
    exact typeBodyAt_section hopened hsection fun found hfound => typeBodyAt_takes rest hc found _ hfound
  | @param content p ts vs param rest =>
    have hmember := plainMember_takes_param param hd (vs ++ c :: us)
    obtain ⟨t, more, rfl, hbegins, -⟩ := param.exists_cons
    rw [List.append_assoc]
    exact typeBodyAt_takes_member hbegins nofun hmember (by simp [TypeDecl.extended])
      fun found hfound => typeBodyAt_takes rest hc found _ hfound
  | @property _ content p ts vs place property rest =>
    have hmember := plainMember_takes_property place property hd (rest.clear hc us)
    obtain ⟨t, more, rfl, hat⟩ := property.exists_cons
    rw [List.append_assoc]
    exact typeBodyAt_takes_member (hat ▸ Kind.beginsMember_atSign) (fun _ => hat ▸ rfl) hmember
      (by simp [TypeDecl.extended]) fun found hfound => typeBodyAt_takes rest hc found _ hfound
  | @gate content g ts vs gate rest =>
    have hmember := plainMember_takes_gate gate hd (vs ++ c :: us)
    obtain ⟨t, more, rfl, hbegins⟩ := gate.exists_cons
    rw [List.append_assoc]
    exact typeBodyAt_takes_member hbegins nofun hmember (by simp [TypeDecl.extended])
      fun found hfound => typeBodyAt_takes rest hc found _ hfound
  | @type content inner ts vs type rest =>
    have hread := typeDecl_takes type ((rest.clear hc us).ne (by simp [statementBars]))
    obtain ⟨t, more, rfl, hword⟩ := type.exists_cons
    have hext : ({ base with types := base.types ++ [inner] } : TypeDecl).extended content =
        base.extended { content with types := inner :: content.types } := by
      simp only [TypeDecl.extended, List.append_assoc, List.singleton_append]
    rw [List.append_assoc, ← hext]
    exact typeBodyAt_type hword hread (Token.length_lt_cons_append ..) fun found hfound =>
      typeBodyAt_takes rest hc _ _ (.mk hd.details (List.rel_append hd.types (option_rel_toList hfound)))
  | @submodule content inner ts vs submodule rest =>
    have hmember := plainMember_takes_submodule submodule hd
      ((rest.clear hc us).ne (by simp [statementBars]))
    obtain ⟨t, more, rfl, hident⟩ := submodule.exists_cons
    rw [List.append_assoc]
    exact typeBodyAt_takes_member (hident ▸ Kind.beginsMember_ident) nofun hmember
      (by simp [TypeDecl.extended]) fun found hfound => typeBodyAt_takes rest hc found _ hfound
  | @link content cs ts vs link rest =>
    have hmember := plainMember_takes_link link hd ((rest.clear hc us).ne (by simp [statementBars]))
    obtain ⟨t, more, rfl, hbegins⟩ := link.exists_cons
    rw [List.append_assoc]
    exact typeBodyAt_takes_member hbegins nofun hmember (by simp [TypeDecl.extended])
      fun found hfound => typeBodyAt_takes rest hc found _ hfound
termination_by 2 * ts.length + 1

end

end Parser

end NedWorkspace
