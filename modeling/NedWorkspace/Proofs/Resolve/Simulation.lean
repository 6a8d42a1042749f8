/-
# Asking twin models the same questions

Twin models are asked with memories that hold corresponding answers. `Query.Simulates` says that the
answers then correspond and that the memories still do. Lookups and questions for members simulate each
other (`Model.Twins.lookup`, `Model.Twins.members`), whatever each side had remembered of lookups; what
the sides remember of members has to correspond, since in a circle of types the members of one depend
on which was asked for first.
-/

import NedWorkspace.Proofs.Resolve.Twin

namespace NedWorkspace

/-- Parameters that are declared alike. -/
structure InheritedParam.Alike (p q : InheritedParam) : Prop where
  name : p.decl.name = q.decl.name
  type : p.decl.type = q.decl.type
  declaredIn : p.declaredIn = q.declaredIn

/-- Gates that are declared alike; their sizes are not compared. -/
structure InheritedGate.Alike (g k : InheritedGate) : Prop where
  name : g.decl.name = k.decl.name
  direction : g.decl.direction = k.decl.direction
  isVector : g.decl.isVector = k.decl.isVector
  declaredIn : g.declaredIn = k.declaredIn

/-- Members of corresponding types that were gathered alike. -/
structure Members.Alike (K : TypeKey → TypeKey → Prop) (m m' : Model) (x y : Members) : Prop where
  chain : List.Forall₂ (Paired K m m') x.chain y.chain
  interfaces : x.interfaces = y.interfaces
  params : List.Forall₂ InheritedParam.Alike x.params y.params
  gates : List.Forall₂ InheritedGate.Alike x.gates y.gates
  cycle : x.cycle = y.cycle

namespace Members

variable {K : TypeKey → TypeKey → Prop} {m m' : Model} {x y : Members}

theorem Alike.param? (h : x.Alike K m m' y) (name : String) :
    Option.Rel InheritedParam.Alike (x.param? name) (y.param? name) :=
  forall₂_find? h.params fun _ _ hpq => by rw [hpq.name]

theorem Alike.gate? (h : x.Alike K m m' y) (name : String) :
    Option.Rel InheritedGate.Alike (x.gate? name) (y.gate? name) :=
  forall₂_find? h.gates fun _ _ hgk => by rw [hgk.name]

/-- A parameter is added on both sides or on neither. -/
theorem forall₂_addParam {R : NodeId → NodeId → Prop} (owner : String) {ps qs : List InheritedParam}
    (h : List.Forall₂ InheritedParam.Alike ps qs) {p q : Param} (hpq : Twin R p q) :
    List.Forall₂ InheritedParam.Alike (addParam owner ps p) (addParam owner qs q) := by
  have htaken : ps.any (·.decl.name == p.name) = qs.any (·.decl.name == q.name) :=
    forall₂_any h fun _ _ hab => by rw [hab.name, Param.Twin.name hpq]
  unfold addParam
  rw [htaken, Param.Twin.type hpq]
  split
  · exact List.rel_append h (.cons ⟨Param.Twin.name hpq, Param.Twin.type hpq, rfl⟩ .nil)
  · exact h

/-- A gate is added on both sides or on neither, or gives its size on both. -/
theorem forall₂_addGate {R : NodeId → NodeId → Prop} (owner : String) {gs ks : List InheritedGate}
    (h : List.Forall₂ InheritedGate.Alike gs ks) {g k : Gate} (hgk : Twin R g k) :
    List.Forall₂ InheritedGate.Alike (addGate owner gs g) (addGate owner ks k) := by
  have htaken : gs.any (·.decl.name == g.name) = ks.any (·.decl.name == k.name) :=
    forall₂_any h fun _ _ hab => by rw [hab.name, Gate.Twin.name hgk]
  have hsized : ∀ a b, InheritedGate.Alike a b →
      (setGateSize g.name g.size a).Alike (setGateSize k.name k.size b) := by
    intro a b hab
    unfold setGateSize
    rw [hab.name, Gate.Twin.name hgk, Gate.Twin.size hgk]
    split
    · exact ⟨hab.name, hab.direction, hab.isVector, hab.declaredIn⟩
    · exact hab
  have hnew : InheritedGate.Alike ⟨g, owner⟩ ⟨k, owner⟩ :=
    ⟨Gate.Twin.name hgk, Gate.Twin.direction hgk, Gate.Twin.isVector hgk, rfl⟩
  unfold addGate
  rw [htaken, Gate.Twin.direction hgk]
  cases k.direction with
  | none => exact forall₂_map h hsized
  | some direction =>
    dsimp only
    split
    · exact h
    · exact List.rel_append h (.cons hnew .nil)

/-- What is added declaration by declaration along corresponding chains. -/
theorem forall₂_along {α β : Type} [Stamped α] {R : β → β → Prop} (own : TypeDecl → List α)
    (add : String → List β → α → List β)
    (hadd : ∀ (N : NodeId → NodeId → Prop) (owner : String) (as bs : List β) (x y : α),
      List.Forall₂ R as bs → Twin N x y → List.Forall₂ R (add owner as x) (add owner bs y))
    (hown : ∀ d e, Paired K m m' d e →
      List.Forall₂ (Twin (nodesOf K d.key.file e.key.file)) (own d.decl) (own e.decl))
    {ds es : List Definition} (h : List.Forall₂ (Paired K m m') ds es) :
    List.Forall₂ R (ds.reverse.foldl (fun found d => (own d.decl).foldl (add d.qname) found) [])
      (es.reverse.foldl (fun found d => (own d.decl).foldl (add d.qname) found) []) := by
  have hstep : ∀ as bs, List.Forall₂ R as bs → ∀ d e, Paired K m m' d e →
      List.Forall₂ R ((own d.decl).foldl (add d.qname) as) ((own e.decl).foldl (add e.qname) bs) := by
    intro as bs has d e hde
    rw [← hde.matched.qname]
    exact List.rel_foldl (fun as bs has x y hxy => hadd _ d.qname as bs x y has hxy) has
      (hown d e hde)
  exact List.rel_foldl (fun as bs has d e hde => hstep as bs has d e hde) .nil (List.rel_reverse h)

/-- Corresponding chains have parameters that are alike, in order. -/
theorem forall₂_paramsOf {ds es : List Definition} (h : List.Forall₂ (Paired K m m') ds es) :
    List.Forall₂ InheritedParam.Alike (paramsOf ds) (paramsOf es) :=
  forall₂_along (fun t => t.params) addParam
    (fun _ owner _ _ _ _ has hxy => forall₂_addParam owner has hxy)
    (fun _ _ hde => hde.matched.alike.params) h

/-- Corresponding chains have gates that are alike, in order. -/
theorem forall₂_gatesOf {ds es : List Definition} (h : List.Forall₂ (Paired K m m') ds es) :
    List.Forall₂ InheritedGate.Alike (gatesOf ds) (gatesOf es) :=
  forall₂_along (fun t => t.gates) addGate
    (fun _ owner _ _ _ _ has hxy => forall₂_addGate owner has hxy)
    (fun _ _ hde => hde.matched.alike.gates) h

end Members

/-- Memories of twin models: lookups are what each model's rule gives, and corresponding types have
corresponding members, if any. -/
structure Memory.Alike (K : TypeKey → TypeKey → Prop) (m m' : Model) (a b : Memory) : Prop where
  coherent : a.Coherent m
  coherent' : b.Coherent m'
  members : ∀ {d e : Definition}, Paired K m m' d e →
    Option.Rel (Members.Alike K m m') (a.members.get? d.id) (b.members.get? e.id)

/-- Questions to two models that give corresponding answers and keep memories alike. -/
def Query.Simulates {α β : Type} (K : TypeKey → TypeKey → Prop) (m m' : Model) (R : α → β → Prop)
    (q : Query α) (q' : Query β) : Prop :=
  ∀ a b, Memory.Alike K m m' a b → R (q a).1 (q' b).1 ∧ Memory.Alike K m m' (q a).2 (q' b).2

namespace Query.Simulates

variable {α β γ δ : Type} {K : TypeKey → TypeKey → Prop} {m m' : Model} {R : α → β → Prop}
  {S : γ → δ → Prop}

/-- Answers at hand correspond if they are related. -/
theorem pure {a : α} {b : β} (h : R a b) :
    Simulates K m m' R (Pure.pure a : Query α) (Pure.pure b : Query β) :=
  fun _ _ hab => ⟨h, hab⟩

/-- Queries in a row correspond if each of them does. -/
theorem bind {q : Query α} {q' : Query β} {f : α → Query γ} {g : β → Query δ}
    (hq : Simulates K m m' R q q') (hf : ∀ a b, R a b → Simulates K m m' S (f a) (g b)) :
    Simulates K m m' S (q >>= f) (q' >>= g) := by
  intro a b hab
  obtain ⟨hanswer, hmemory⟩ := hq a b hab
  exact hf _ _ hanswer _ _ hmemory

/-- Two ways of asking, the same on both sides, and one way to go on. -/
theorem ite_bind {c : Prop} [Decidable c] {x y : Query α} {x' y' : Query β} {f : α → Query γ}
    {g : β → Query δ} (hx : Simulates K m m' R x x') (hy : Simulates K m m' R y y')
    (hf : ∀ a b, R a b → Simulates K m m' S (f a) (g b)) :
    Simulates K m m' S (if c then x >>= f else y >>= f) (if c then x' >>= g else y' >>= g) := by
  split
  · exact .bind hx hf
  · exact .bind hy hf

end Query.Simulates

open Query

namespace Model

/-- Lists of keys that hold corresponding definitions alike. -/
def SameKeys (K : TypeKey → TypeKey → Prop) (m m' : Model) (u u' : List TypeKey) : Prop :=
  ∀ d e, Paired K m m' d e → (d.key ∈ u ↔ e.key ∈ u')

/-- All definitions of a model are known to it. -/
theorem sameKeys_knownKeys {K : TypeKey → TypeKey → Prop} {m m' : Model} (a b : Memory)
    (k k' : TypeKey) : SameKeys K m m' (k :: m.knownKeys a) (k' :: m'.knownKeys b) := by
  have hknown : ∀ {m : Model} {d : Definition} (a : Memory), m.Lists d → d.key ∈ m.knownKeys a :=
    fun a hd => List.mem_map_of_mem (List.mem_append_left _ (List.mem_append_left _
      (List.mem_append_left _ hd.mem_allTypes)))
  intro d e hde
  exact iff_of_true (List.mem_cons_of_mem _ (hknown a hde.listed))
    (List.mem_cons_of_mem _ (hknown b hde.listed'))

end Model

namespace Model.Twins

variable {K : TypeKey → TypeKey → Prop} {m m' : Model} (T : m.Twins K m') {d e : Definition}
include T

/-- Paired definitions are the same on one side exactly if they are on the other. -/
theorem key_eq_iff {d₂ e₂ : Definition} (h : Paired K m m' d e) (h₂ : Paired K m m' d₂ e₂) :
    d.key = d₂.key ↔ e.key = e₂.key :=
  T.unique h.matched.key h₂.matched.key

/-- All definitions of a file are of one edition, so keys alone tell them apart. -/
theorem id_eq_iff {d₂ e₂ : Definition} (h : Paired K m m' d e) (h₂ : Paired K m m' d₂ e₂) :
    d.id = d₂.id ↔ e.id = e₂.id := by
  obtain ⟨s, s', edition, edition', hs, hs', _, huniform, huniform'⟩ := T.scopes h.matched.key
  have hedition : ∀ {x : Definition}, m.Lists x → x.key.file = d.key.file → x.edition = edition := by
    rintro x ⟨t, ht, hx⟩ hfile
    rw [hfile, hs] at ht
    obtain rfl := Option.some.inj ht
    exact (huniform x hx).2
  have hedition' : ∀ {x : Definition}, m'.Lists x → x.key.file = e.key.file →
      x.edition = edition' := by
    rintro x ⟨t, ht, hx⟩ hfile
    rw [hfile, hs'] at ht
    obtain rfl := Option.some.inj ht
    exact (huniform' x hx).2
  have hleft : d.id = d₂.id ↔ d.key = d₂.key := by
    rw [Definition.id, Definition.id, DefinitionId.mk.injEq, and_iff_left_iff_imp]
    intro hkey
    rw [hedition h.listed rfl, hedition h₂.listed (congrArg TypeKey.file hkey.symm)]
  have hright : e.id = e₂.id ↔ e.key = e₂.key := by
    rw [Definition.id, Definition.id, DefinitionId.mk.injEq, and_iff_left_iff_imp]
    intro hkey
    rw [hedition' h.listed' rfl, hedition' h₂.listed' (congrArg TypeKey.file hkey.symm)]
  rw [hleft, hright, T.key_eq_iff h h₂]

/-- Corresponding keys taken out of corresponding sets. -/
theorem sameKeys_without {u u' : List TypeKey} (h : SameKeys K m m' u u')
    (hde : Paired K m m' d e) : SameKeys K m m' (without u d.key) (without u' e.key) := by
  intro x y hxy
  rw [mem_without, mem_without, h x y hxy, ne_eq, ne_eq, T.key_eq_iff hxy hde]

/-- Corresponding members are remembered for corresponding types. -/
theorem insert_members {a b : Memory} (h : Memory.Alike K m m' a b) (hde : Paired K m m' d e)
    {x y : Members} (hxy : x.Alike K m m' y) :
    Memory.Alike K m m' { a with members := a.members.insert d.id x }
      { b with members := b.members.insert e.id y } := by
  refine ⟨h.coherent, h.coherent', fun {d₂ e₂} h₂ => ?_⟩
  dsimp only
  rw [OrderedMap.get?_insert, OrderedMap.get?_insert]
  by_cases hid : d₂.id = d.id
  · rw [if_pos hid, if_pos ((T.id_eq_iff h₂ hde).mp hid)]
    exact .some hxy
  · rw [if_neg hid, if_neg fun hid' => hid ((T.id_eq_iff h₂ hde).mpr hid')]
    exact h.members h₂

/-! ### Lookups -/

/-- A name is looked up inside corresponding types. -/
theorem lookup {k k' : TypeKey} (hk : K k k') (name : String) :
    Simulates K m m' (Option.Rel (Paired K m m')) (m.lookup name (.type k))
      (m'.lookup name (.type k')) := by
  have hproject : m.projectFor? (.type k) = m'.projectFor? (.type k') := T.projectOf? hk
  unfold Model.lookup
  rw [hproject]
  cases m'.projectFor? (.type k') with
  | none => exact .pure .none
  | some project =>
    intro a b hab
    refine ⟨?_, ?_, ?_, hab.members⟩
    · rw [hab.coherent.lookupIn, hab.coherent'.lookupIn]
      exact T.resolve hk name project
    · exact (m.lookupIn_asks name _ project a).coherent hab.coherent
    · exact (m'.lookupIn_asks name _ project b).coherent hab.coherent'

/-- Paired definitions have paired first base types, or neither has one. -/
theorem firstBase (h : Paired K m m' d e) :
    Simulates K m m' (Option.Rel (Paired K m m')) (m.firstBase d) (m'.firstBase e) := by
  unfold Model.firstBase
  rw [h.matched.baseNames]
  cases e.baseNames with
  | nil => exact .pure .none
  | cons name names => exact T.lookup h.matched.key name

/-! ### Chains -/

/-- Chains that correspond, and either both run in a circle or none does. -/
def SameChain (K : TypeKey → TypeKey → Prop) (m m' : Model) (r r' : List Definition × Bool) : Prop :=
  List.Forall₂ (Paired K m m') r.1 r'.1 ∧ r.2 = r'.2

/-- Paired definitions have corresponding chains of first base types. -/
theorem singleChain {u u' : List TypeKey} (hu : SameKeys K m m' u u') {d e : Definition}
    (h : Paired K m m' d e) :
    Simulates K m m' (SameChain K m m') (m.singleChain u d) (m'.singleChain u' e) := by
  rw [Model.singleChain, Model.singleChain]
  refine .bind (T.firstBase h) fun base base' hbase => ?_
  cases hbase with
  | none => exact .pure ⟨.nil, rfl⟩
  | @some x y hxy =>
    dsimp only
    by_cases hx : x.key ∈ u
    · rw [dif_pos hx, dif_pos ((hu x y hxy).mp hx)]
      refine .bind (singleChain (T.sameKeys_without hu hxy) hxy) fun more more' hmore => ?_
      exact .pure ⟨.cons hxy hmore.1, hmore.2⟩
    · rw [dif_neg hx, dif_neg fun hy => hx ((hu x y hxy).mpr hy)]
      exact .pure ⟨.nil, rfl⟩
termination_by u.length
decreasing_by exact length_without_lt hx

/-- The search for all base types goes through corresponding states. -/
theorem branchingChain {self self' : Definition} (hself : Paired K m m' self self')
    {u u' : List TypeKey} (hu : SameKeys K m m' u u') {pending pending' : List Definition}
    (hpending : List.Forall₂ (Paired K m m') pending pending') {current current' : Definition}
    (hcurrent : Paired K m m' current current') (names : List String) {chain chain' : List Definition}
    (hchain : List.Forall₂ (Paired K m m') chain chain') (cycle : Bool) :
    Simulates K m m' (SameChain K m m')
      (m.branchingChain self.key u pending current names chain cycle)
      (m'.branchingChain self'.key u' pending' current' names chain' cycle) := by
  fun_induction Model.branchingChain m self.key u pending current names chain cycle
    generalizing u' pending' current' chain' with
  | case1 =>
    cases hpending
    rw [Model.branchingChain]
    exact .pure ⟨hchain, rfl⟩
  | case2 u current chain cycle p ps ih =>
    cases hpending with
    | cons hp hps =>
      rw [Model.branchingChain, ← hp.matched.baseNames]
      exact ih hu hps hp hchain
  | case3 u pending current chain cycle name names ihnone ihmet ihunmet =>
    rw [Model.branchingChain]
    dsimp only
    refine .bind (T.lookup hcurrent.matched.key name) fun base base' hbase => ?_
    cases hbase with
    | none => exact ihnone hu hpending hcurrent hchain
    | @some x y hxy =>
      have hback : decide (x.key = self.key) = decide (y.key = self'.key) :=
        decide_eq_decide.mpr (T.key_eq_iff hxy hself)
      dsimp only
      rw [← hback]
      by_cases hx : x.key ∈ u
      · rw [dif_pos hx, dif_pos ((hu x y hxy).mp hx)]
        exact ihmet x hx (T.sameKeys_without hu hxy) (.cons hxy hpending) hcurrent
          (List.rel_append hchain (.cons hxy .nil))
      · rw [dif_neg hx, dif_neg fun hy => hx ((hu x y hxy).mpr hy)]
        exact ihunmet x hu hpending hcurrent hchain

/-- Paired definitions have corresponding chains. -/
theorem chainOf {known known' : List TypeKey} (hknown : SameKeys K m m' known known')
    (h : Paired K m m' d e) :
    Simulates K m m' (SameChain K m m') (m.chainOf known d) (m'.chainOf known' e) := by
  have hu := T.sameKeys_without hknown h
  unfold Model.chainOf
  dsimp only
  rw [← h.matched.kind, ← h.matched.baseNames]
  split
  · exact T.branchingChain h hu .nil h d.baseNames (.cons h .nil) false
  · refine .bind (T.singleChain hu h) fun r r' hr => ?_
    exact .pure ⟨.cons h hr.1, hr.2⟩

/-! ### Members -/

omit T in
/-- Corresponding chains claim the same interfaces. -/
theorem likesAlong {ds es : List Definition} (h : List.Forall₂ (Paired K m m') ds es) :
    List.Forall₂ (fun x y : Definition × String => Paired K m m' x.1 y.1 ∧ x.2 = y.2)
      (likesAlong ds) (likesAlong es) := by
  refine forall₂_flatMap h fun d e hde => ?_
  rw [hde.matched.likeNames]
  refine forall₂_map (R := Eq) (List.forall₂_same.mpr fun _ _ => rfl) fun name name' hname => ?_
  exact ⟨hde, hname⟩

omit T in
theorem qnames {ds es : List Definition} (h : List.Forall₂ (Paired K m m') ds es) :
    (ds.map fun s : Definition => s.qname) = es.map fun s : Definition => s.qname :=
  forall₂_map_eq h fun _ _ hde => hde.matched.qname

omit T in
theorem interfacesAlong (h : Paired K m m' d e) {ds es : List Definition}
    (hchain : List.Forall₂ (Paired K m m') ds es) : interfacesAlong d ds = interfacesAlong e es := by
  unfold Model.interfacesAlong
  rw [h.matched.kind, qnames (List.forall₂_drop 1 hchain)]

mutual

/-- Members of corresponding types, when the same types are being gathered. -/
theorem membersAmong {known known' idle idle' : List TypeKey} (hknown : SameKeys K m m' known known')
    (hidle : SameKeys K m m' idle idle') {d e : Definition} (h : Paired K m m' d e) :
    Simulates K m m' (Members.Alike K m m') (m.membersAmong known idle d)
      (m'.membersAmong known' idle' e) := by
  intro a b hab
  have hremembered := hab.members h
  cases hx : a.members.get? d.id with
  | some x =>
    cases hy : b.members.get? e.id with
    | none =>
      rw [hx, hy] at hremembered
      cases hremembered
    | some y =>
      rw [hx, hy] at hremembered
      rw [membersAmong_of_get? hx, membersAmong_of_get? hy]
      cases hremembered with
      | some hxy => exact ⟨hxy, hab⟩
  | none =>
    cases hy : b.members.get? e.id with
    | some y =>
      rw [hx, hy] at hremembered
      cases hremembered
    | none =>
      by_cases hd : d.key ∈ idle
      · rw [membersAmong_of_idle hx hd, membersAmong_of_idle hy ((hidle d e h).mp hd)]
        obtain ⟨hchain, hmemory⟩ := T.chainOf hknown h a b hab
        have hown := interfacesAlong h hchain.1
        obtain ⟨hinterfaces, hlater⟩ := implementedBy hknown (T.sameKeys_without hidle h)
          (likesAlong hchain.1) (Model.interfacesAlong d (m.chainOf known d a).1.1) _ _ hmemory
        rw [hown] at hinterfaces hlater
        have halike : (membersAlong (m.chainOf known d a).1 _).Alike K m m'
            (membersAlong (m'.chainOf known' e b).1 _) :=
          ⟨hchain.1, hinterfaces, Members.forall₂_paramsOf hchain.1,
            Members.forall₂_gatesOf hchain.1, hchain.2⟩
        dsimp only
        rw [hown]
        exact ⟨halike, T.insert_members hlater h halike⟩
      · rw [membersAmong_of_busy hx hd, membersAmong_of_busy hy fun he => hd ((hidle d e h).mpr he)]
        exact ⟨⟨.cons h .nil, rfl, .nil, .nil, rfl⟩, hab⟩
termination_by (idle.length, 0)
decreasing_by exact Prod.Lex.left _ _ (length_without_lt hd)

/-- Corresponding claims add the same interfaces. -/
theorem implementedBy {known known' idle idle' : List TypeKey}
    (hknown : SameKeys K m m' known known') (hidle : SameKeys K m m' idle idle')
    {likes likes' : List (Definition × String)}
    (hlikes : List.Forall₂ (fun x y => Paired K m m' x.1 y.1 ∧ x.2 = y.2) likes likes')
    (found : List String) :
    Simulates K m m' Eq (m.implementedBy known idle likes found)
      (m'.implementedBy known' idle' likes' found) := by
  match likes, likes', hlikes with
  | [], [], .nil =>
    rw [implementedBy_nil, implementedBy_nil]
    exact .pure rfl
  | (t, name) :: likes, (t', name') :: likes', .cons ⟨ht, hname⟩ hrest =>
    obtain rfl : name = name' := hname
    rw [implementedBy_cons, implementedBy_cons]
    refine .bind (T.lookup ht.matched.key name) fun x y hxy => ?_
    cases hxy with
    | none => exact implementedBy hknown hidle hrest found
    | some hxy =>
      refine .bind (membersAmong hknown hidle hxy) fun x y hmembers => ?_
      rw [qnames hmembers.chain]
      exact implementedBy hknown hidle hrest _
termination_by (idle.length, likes.length)
decreasing_by all_goals exact Prod.Lex.right _ (by simp)

end

/-- **Corresponding types have corresponding members.** -/
theorem members (h : Paired K m m' d e) :
    Simulates K m m' (Members.Alike K m m') (m.members d) (m'.members e) := by
  intro a b hab
  have hknown : SameKeys K m m' (d.key :: m.knownKeys a) (e.key :: m'.knownKeys b) :=
    sameKeys_knownKeys a b d.key e.key
  rw [members_eq, members_eq]
  exact T.membersAmong hknown hknown h a b hab

end Model.Twins

end NedWorkspace
