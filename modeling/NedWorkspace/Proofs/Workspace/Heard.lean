/-
# What listeners hear

SPEC_FULL, section 4.5 and section 5: notifications keep application order.

In a session in which no listener fails, somebody who listens all the time hears of every event that is
taken from the queue, and of each once. The order is that of the queue if nobody who registered earlier
answers events by commands (`World.heard_throughout`). Otherwise it need not be: a command that somebody
gives on hearing of an event delivers all that is still queued, also to those who have yet to hear of that
very event (`World.heard_out_of_turn`).
-/

import NedWorkspace.Proofs.Workspace.History

namespace NedWorkspace

open Event

namespace World

variable {steady p q r : Prop} {n : Nat} {tells more : List (Event × Listener)} {u v w w' : World}

/-! ### Numbers of listeners -/

/-- Somebody with the given number is registered. -/
def Registered (w : World) (n : Nat) : Prop :=
  n ∈ w.listeners.map Listener.number

instance (w : World) (n : Nat) : Decidable (w.Registered n) :=
  inferInstanceAs (Decidable (n ∈ w.listeners.map Listener.number))

/-- Numbers were given out in turn. -/
structure Counted (w : World) : Prop where
  keys : ∀ k ∈ w.budgets.keys, k < w.budgets.size
  numbers : ∀ l ∈ w.listeners, l.number < w.budgets.size
  nodup : (w.listeners.map Listener.number).Nodup

/-- Numbers of listeners are right as long as listeners and budgets stay. -/
theorem Counted.of_eq (hw : w.Counted) (hkeys : w'.budgets.keys = w.budgets.keys)
    (hlisteners : w'.listeners = w.listeners) : w'.Counted := by
  have hsize := OrderedMap.size_of_keys hkeys
  constructor
  · rw [hkeys, hsize]
    exact hw.keys
  · rw [hlisteners, hsize]
    exact hw.numbers
  · rw [hlisteners]
    exact hw.nodup

/-- The number that is given out next. -/
theorem Counted.fresh (hw : w.Counted) : w.budgets.get? w.budgets.size = none := by
  rw [Option.eq_none_iff_forall_ne_some]
  intro left hleft
  have hmem : w.budgets.size ∈ w.budgets.keys :=
    List.mem_map_of_mem (f := Prod.fst) (OrderedMap.mem_of_get? hleft)
  exact Nat.lt_irrefl _ (hw.keys _ hmem)

/-- A new listener gets the next number. -/
theorem Counted.joined (hw : w.Counted) {l : Listener} (hnumber : l.number = w.budgets.size) (times : Nat) :
    Counted { w with listeners := w.listeners ++ [l], budgets := w.budgets.insert l.number times } := by
  have hnew : w.budgets.get? l.number = none := hnumber ▸ hw.fresh
  have hsize := OrderedMap.size_insert_of_get?_none times hnew
  constructor
  · show ∀ k ∈ (w.budgets.insert l.number times).keys, k < (w.budgets.insert l.number times).size
    intro k hk
    rw [OrderedMap.keys_insert_of_get?_none times hnew, List.mem_append, List.mem_singleton] at hk
    rcases hk with hk | rfl
    · have := hw.keys k hk
      omega
    · omega
  · show ∀ k ∈ w.listeners ++ [l], k.number < (w.budgets.insert l.number times).size
    intro k hk
    rcases List.mem_append.mp hk with hk | hk
    · have := hw.numbers k hk
      omega
    · rw [List.mem_singleton.mp hk]
      omega
  · rw [List.map_append, List.nodup_append]
    refine ⟨hw.nodup, List.pairwise_singleton .., fun k hk m hm => ?_⟩
    obtain ⟨j, hj, rfl⟩ := List.mem_map.mp hk
    have := hw.numbers j hj
    rw [List.map_singleton, List.mem_singleton] at hm
    omega

/-- From one world to another some listeners left, and others joined behind those who stayed. -/
structure Succeeds (w w' : World) : Prop where
  counted : w'.Counted
  size : w.budgets.size ≤ w'.budgets.size
  listeners : ∃ stayed joined, w'.listeners = stayed ++ joined ∧ stayed.Sublist w.listeners ∧
    ∀ l ∈ joined, w.budgets.size ≤ l.number

namespace Succeeds

theorem of_eq (hw : w.Counted) (hkeys : w'.budgets.keys = w.budgets.keys)
    (hlisteners : w'.listeners = w.listeners) : Succeeds w w' :=
  ⟨hw.of_eq hkeys hlisteners, Nat.le_of_eq (OrderedMap.size_of_keys hkeys).symm, w.listeners, [],
    by rw [hlisteners, List.append_nil], List.Sublist.refl _, nofun⟩

/-- Worlds that succeed one another. -/
theorem trans (huv : Succeeds u v) (hvw : Succeeds v w) : Succeeds u w := by
  obtain ⟨stayed, joined, hv, hstayed, hjoined⟩ := huv.listeners
  obtain ⟨stayed', joined', hw, hstayed', hjoined'⟩ := hvw.listeners
  rw [hv] at hstayed'
  obtain ⟨first, second, rfl, hfirst, hsecond⟩ := List.sublist_append_iff.mp hstayed'
  refine ⟨hvw.counted, Nat.le_trans huv.size hvw.size, first, second ++ joined', ?_, hfirst.trans hstayed, ?_⟩
  · rw [hw, List.append_assoc]
  · intro l hl
    rcases List.mem_append.mp hl with hl | hl
    · exact hjoined l (hsecond.subset hl)
    · exact Nat.le_trans huv.size (hjoined' l hl)

/-- A new listener takes no number from others. -/
theorem joined (hw : w.Counted) {l : Listener} (hnumber : l.number = w.budgets.size) (times : Nat) :
    Succeeds w { w with listeners := w.listeners ++ [l], budgets := w.budgets.insert l.number times } := by
  refine ⟨hw.joined hnumber times, ?_, w.listeners, [l], rfl, List.Sublist.refl _, ?_⟩
  · rw [OrderedMap.size_insert_of_get?_none times (hnumber ▸ hw.fresh)]
    exact Nat.le_succ _
  · exact fun k hk => Nat.le_of_eq (List.mem_singleton.mp hk ▸ hnumber).symm

/-- When a listener leaves, the others stay as they are. -/
theorem left (hw : w.Counted) (number : Nat) :
    Succeeds w { w with listeners := w.listeners.filter (·.number != number) } := by
  refine ⟨⟨hw.keys, fun l hl => hw.numbers l (List.mem_filter.mp hl).1, ?_⟩, Nat.le_refl _,
    _, [], (List.append_nil _).symm, List.filter_sublist, nofun⟩
  exact hw.nodup.sublist (List.filter_sublist.map _)

/-- What comes after telling a listener comes after the world before. -/
theorem told (hw : w.Counted) {l : Listener} {e : Event} {budgets : OrderedMap Nat Nat}
    (hkeys : budgets.keys = w.budgets.keys)
    (h : (w.told l e budgets).Counted → Succeeds (w.told l e budgets) w') : Succeeds w w' := by
  have htold : Succeeds w (w.told l e budgets) := of_eq hw hkeys rfl
  exact htold.trans (h htold.counted)

/-- Somebody who was there already and is registered was registered all the time. -/
theorem registered (h : Succeeds w w') (hn : n < w.budgets.size) (hreg : w'.Registered n) :
    w.Registered n := by
  obtain ⟨stayed, joined, hlisteners, hstayed, hjoined⟩ := h.listeners
  obtain ⟨l, hl, rfl⟩ := List.mem_map.mp hreg
  rw [hlisteners, List.mem_append] at hl
  rcases hl with hl | hl
  · exact List.mem_map_of_mem (hstayed.subset hl)
  · exact absurd (hjoined l hl) (Nat.not_le.mpr hn)

end Succeeds

/-- **Listeners come and go in good order.** -/
theorem Run.succeeds (h : Run steady tells w w') (hw : w.Counted) : Succeeds w w' := by
  induction h with
  | done | made | opened | aside => exact .of_eq hw rfl rfl
  | andThen _ _ ihfirst ihnext => exact (ihfirst hw).trans (ihnext (ihfirst hw).counted)
  | enclosed _ ih =>
    have hinner := ih (hw.of_eq rfl rfl)
    exact ⟨hinner.counted.of_eq rfl rfl, hinner.size, hinner.listeners⟩
  | joined w l times hnumber _ => exact .joined hw hnumber times
  | left w number => exact .left hw number
  | took _ _ ih =>
    have htelling := ih (hw.of_eq rfl rfl)
    exact ⟨htelling.counted, htelling.size, htelling.listeners⟩
  | heard hkeys _ ih => exact .told hw hkeys ih
  | reacted _ hkeys _ _ _ ihreaction ihrest =>
    refine .told hw hkeys fun htold => (ihreaction htold).trans ?_
    have hrest := ihrest ((ihreaction htold).counted.of_eq rfl rfl)
    exact ⟨hrest.counted, hrest.size, hrest.listeners⟩
  | cut _ hkeys _ ih => exact .told hw hkeys ih

/-! ### Who is told before whom -/

/-- Whoever is told before somebody with the given number gives no commands. -/
def Unhindered (n : Nat) (ls : List Listener) : Prop :=
  ls.Pairwise fun l k => k.number = n → l.reaction = none

instance (n : Nat) (ls : List Listener) : Decidable (Unhindered n ls) :=
  inferInstanceAs (Decidable (ls.Pairwise fun l k => k.number = n → l.reaction = none))

/-- A listener that no other hinders is never hindered by one that joins later. -/
theorem Succeeds.unhindered (h : Succeeds w w') (hn : n < w.budgets.size)
    (hw : Unhindered n w.listeners) : Unhindered n w'.listeners := by
  obtain ⟨stayed, joined, hlisteners, hstayed, hjoined⟩ := h.listeners
  have hother : ∀ l ∈ joined, l.number ≠ n := fun l hl heq =>
    absurd (hjoined l hl) (Nat.not_le.mpr (heq ▸ hn))
  rw [hlisteners, Unhindered, List.pairwise_append]
  refine ⟨List.Pairwise.sublist hstayed hw, ?_, fun l _ k hk heq => absurd heq (hother k hk)⟩
  exact List.pairwise_of_forall_mem_list fun l _ k hk heq => absurd heq (hother k hk)

/-- The events that a listener is still to be told of. -/
def pending (n : Nat) (tells : List (Event × Listener)) : List Event :=
  (tells.filter fun t => t.2.number = n).map Prod.fst

/-- What a listener is still to hear is heard in order. -/
theorem pending_cons (n : Nat) (t : Event × Listener) (tells : List (Event × Listener)) :
    pending n (t :: tells) = pending n [t] ++ pending n tells := by
  rw [pending, ← List.singleton_append, List.filter_append, List.map_append]
  rfl

/-- A listener that is not among those to be told hears nothing. -/
theorem pending_eq_nil (h : ∀ t ∈ tells, t.2.number ≠ n) : pending n tells = [] := by
  rw [pending, List.filter_eq_nil_iff.mpr fun t ht => by simpa using h t ht]
  rfl

/-- Where an event is told to all who are registered, each of them is told once. -/
theorem pending_all (e : Event) {ls : List Listener} (hnodup : (ls.map Listener.number).Nodup)
    (hn : n ∈ ls.map Listener.number) : pending n (ls.map (e, ·)) = [e] := by
  induction ls with
  | nil => exact absurd hn List.not_mem_nil
  | cons l ls ih =>
    rw [List.map_cons, List.nodup_cons] at hnodup
    rw [List.map_cons, List.mem_cons] at hn
    rw [List.map_cons, pending_cons]
    by_cases hl : l.number = n
    · have hothers : pending n (ls.map (e, ·)) = [] := by
        refine pending_eq_nil fun t ht => ?_
        obtain ⟨k, hk, rfl⟩ := List.mem_map.mp ht
        exact fun heq => hnodup.1 (hl ▸ heq ▸ List.mem_map_of_mem hk)
      rw [hothers, List.append_nil]
      simp [pending, hl]
    · rw [ih hnodup.2 (hn.resolve_left (Ne.symm hl)), pending_eq_nil (by simpa using hl)]
      rfl

/-! ### What is heard -/

/-- The events that a listener was told of, the oldest first. -/
def heard (w : World) (n : Nat) : List Event :=
  w.notes.filterMap fun
    | (k, .event e) => if k = n then some e else none
    | (_, .reply _) => none

/-- A listener hears what it is told. -/
theorem heard_told (w : World) (l : Listener) (e : Event) (budgets : OrderedMap Nat Nat) (n : Nat) :
    (w.told l e budgets).heard n = w.heard n ++ pending n [(e, l)] := by
  rw [heard, told, note, List.filterMap_append]
  by_cases h : l.number = n <;> simp [heard, pending, h]

theorem heard_reply (w : World) (k : Nat) (a : Answer) (n : Nat) :
    (w.note k (.reply a)).heard n = w.heard n := by
  rw [heard, note, List.filterMap_append]
  exact List.append_nil _

/-- A listener hears of what it was still to be told of and of the events that are taken from the queue
meanwhile, in that order under the given condition. -/
def Hears (inTurn : Prop) (n : Nat) (tells : List (Event × Listener)) (w w' : World) : Prop :=
  ∃ taken heard, w'.delivered = w.delivered ++ taken ∧ w'.heard n = w.heard n ++ heard ∧
    heard.Perm (pending n tells ++ taken) ∧ (inTurn → heard = pending n tells ++ taken)

namespace Hears

theorem of_eq (hdelivered : w'.delivered = w.delivered) (hheard : w'.heard n = w.heard n) :
    Hears p n [] w w' :=
  ⟨[], [], by rw [hdelivered, List.append_nil], by rw [hheard, List.append_nil], .refl _, fun _ => rfl⟩

/-- What is heard under a condition is heard under any stronger one. -/
theorem mono (h : Hears p n tells w w') (hqp : q → p) : Hears q n tells w w' := by
  obtain ⟨taken, heard, hdelivered, hheard, hperm, hturn⟩ := h
  exact ⟨taken, heard, hdelivered, hheard, hperm, hturn ∘ hqp⟩

/-- Before others are told of an event, something happens in between. -/
theorem trans (huv : Hears p n [] u v) (hvw : Hears q n more v w)
    (h : r → p ∧ q ∧ pending n more = []) : Hears r n more u w := by
  obtain ⟨taken, heard, hdelivered, hheard, hperm, hturn⟩ := huv
  obtain ⟨taken', heard', hdelivered', hheard', hperm', hturn'⟩ := hvw
  refine ⟨taken ++ taken', heard ++ heard', ?_, ?_, ?_, fun hr => ?_⟩
  · rw [hdelivered', hdelivered, List.append_assoc]
  · rw [hheard', hheard, List.append_assoc]
  · exact (hperm.append hperm').trans (List.perm_append_comm_assoc ..)
  · obtain ⟨hp, hq, hnone⟩ := h hr
    rw [hturn hp, hturn' hq, hnone]
    rfl

/-- First somebody is told. -/
theorem told {l : Listener} {e : Event} {budgets : OrderedMap Nat Nat}
    (h : Hears p n more (w.told l e budgets) w') : Hears p n ((e, l) :: more) w w' := by
  obtain ⟨taken, heard, hdelivered, hheard, hperm, hturn⟩ := h
  refine ⟨taken, pending n [(e, l)] ++ heard, hdelivered, ?_, ?_, fun hp => ?_⟩
  · rw [hheard, heard_told, List.append_assoc]
  · rw [pending_cons n _ more, List.append_assoc]
    exact hperm.append_left _
  · rw [pending_cons n _ more, List.append_assoc, hturn hp]

theorem replied {k : Nat} {a : Answer} (h : Hears p n more (w.note k (.reply a)) w') :
    Hears p n more w w' := by
  obtain ⟨taken, heard, hdelivered, hheard, hperm, hturn⟩ := h
  exact ⟨taken, heard, hdelivered, by rw [hheard, heard_reply], hperm, hturn⟩

/-- An event is taken from the queue and told to all who are registered. -/
theorem took {e : Event} {es : List Event} (hnodup : (w.listeners.map Listener.number).Nodup)
    (hn : w.Registered n) (h : Hears p n (w.listeners.map (e, ·))
      { w with state := { w.state with events := es }, delivered := w.delivered ++ [e] } w') :
    Hears p n [] w w' := by
  obtain ⟨taken, heard, hdelivered, hheard, hperm, hturn⟩ := h
  rw [pending_all e hnodup hn] at hperm hturn
  exact ⟨e :: taken, heard, by rw [hdelivered]; exact List.append_assoc .., hheard, hperm, hturn⟩

end Hears

/-- **Whoever listens all the time hears of every event once,** and in turn if nobody who is told earlier
gives commands. -/
theorem Run.hears (h : Run steady tells w w') (hs : steady) (hw : w.Counted) (hn : n < w.budgets.size)
    (hreg : w'.Registered n) :
    Hears (Unhindered n w.listeners ∧ Unhindered n (tells.map Prod.snd)) n tells w w' := by
  induction h with
  | done | made | aside | joined | left => exact .of_eq rfl rfl
  | opened w hnot => exact absurd hs hnot
  | andThen hfirst hnext ihfirst ihnext =>
    have hmid := hfirst.succeeds hw
    have hmidn := Nat.lt_of_lt_of_le hn hmid.size
    refine (ihfirst hw hn ((hnext.succeeds hmid.counted).registered hmidn hreg)).trans
      (ihnext hmid.counted hmidn hreg) fun hturn => ⟨hturn, ⟨hmid.unhindered hn hturn.1, hturn.2⟩, rfl⟩
  | enclosed _ ih => exact ih (hw.of_eq rfl rfl) hn hreg
  | @took w w' e es hqueue htelling ih =>
    have hlater := ih (hw.of_eq rfl rfl) hn hreg
    have hall : (w.listeners.map (e, ·)).map Prod.snd = w.listeners := by simp [Function.comp_def]
    rw [hall] at hlater
    have hn' : w.Registered n := (htelling.succeeds (hw.of_eq rfl rfl)).registered hn hreg
    exact (Hears.took hw.nodup hn' hlater).mono fun hturn => ⟨hturn.1, hturn.1⟩
  | heard hkeys _ ih =>
    have hsize := OrderedMap.size_of_keys hkeys
    refine (ih (hw.of_eq hkeys rfl) (hsize ▸ hn) hreg).told.mono fun hturn => ⟨hturn.1, ?_⟩
    exact (List.pairwise_cons.mp hturn.2).2
  | @reacted w v w' e l more budgets c a hkeys hreaction hrun hrest ihreaction ihrest =>
    have htold : (w.told l e budgets).Counted := hw.of_eq hkeys rfl
    have hreacted : Succeeds w v := .told hw hkeys hrun.succeeds
    have hv : (v.note l.number (.reply a)).Counted := hreacted.counted.of_eq rfl rfl
    have hnv : n < v.budgets.size := Nat.lt_of_lt_of_le hn hreacted.size
    have hregv : v.Registered n := (hrest.succeeds hv).registered hnv hreg
    have hmeanwhile := ihreaction htold (OrderedMap.size_of_keys hkeys ▸ hn) hregv
    have hlater := (ihrest hv hnv hreg).replied
    refine (hmeanwhile.trans hlater fun hturn => ?_).told
    obtain ⟨hfirst, hothers⟩ := List.pairwise_cons.mp hturn.2
    refine ⟨⟨hturn.1, .nil⟩, ⟨hreacted.unhindered hn hturn.1, hothers⟩, ?_⟩
    -- Somebody who gives a command on hearing of the event is told of it after the listener.
    refine pending_eq_nil fun t ht heq => ?_
    have hnone := hfirst t.2 (List.mem_map_of_mem ht) heq
    rw [hreaction] at hnone
    exact absurd hnone nofun
  | cut hnot => exact absurd hs hnot

/-- Numbers are given out in turn from the beginning of a session on. -/
theorem start_counted {storage : Storage} {provider : Provider}
    (h : World.start storage provider = .ok w) : w.Counted := by
  have hran : Run True [] { storage, provider } w ∧ (True → w.state.events = []) := start_ran h
  exact (hran.1.succeeds ⟨nofun, nofun, .nil⟩).counted

/-- **Whoever listens throughout hears of everything.** Commands are given in a session in which no listener
fails, though they may give commands themselves and come and go. Somebody who is registered before some of
the commands and after them hears, in the course of these, of exactly the events that are queued meanwhile,
each once; all of them are delivered by then, and they open and close the same brackets. If nobody who
registered earlier gives commands, the events are heard in the order in which they were queued. -/
theorem heard_throughout {storage : Storage} {provider : Provider} {w : World}
    (h : World.start storage provider = .ok w) {before during : List Command}
    (hsteady : ∀ c ∈ before ++ during, c.steady false = true) {n : Nat}
    (hfirst : (w.after before).Registered n) (hlast : ((w.after before).after during).Registered n) :
    ∃ queued heard, ((w.after before).after during).history = (w.after before).history ++ queued ∧
      ((w.after before).after during).delivered = (w.after before).delivered ++ queued ∧
      Balanced queued ∧
      ((w.after before).after during).heard n = (w.after before).heard n ++ heard ∧
      heard.Perm queued ∧ (Unhindered n (w.after before).listeners → heard = queued) := by
  obtain ⟨hw, hempty⟩ := start_steady h
  have hearlier : ∀ c ∈ before, c.steady false = true := fun c hc =>
    hsteady c (List.mem_append_left _ hc)
  have hlater : ∀ c ∈ during, c.steady false = true := fun c hc =>
    hsteady c (List.mem_append_right _ hc)
  obtain ⟨hran, hqueue⟩ := w.after_ran (fun _ : True => hearlier) fun _ => hw
  obtain ⟨hran', hqueue'⟩ := (w.after before).after_ran (fun _ : True => hlater) fun _ =>
    hran.listeners_steady trivial hw
  have hdone := hqueue trivial hempty
  have hdone' := hqueue' trivial hdone
  have hcounted := (hran.succeeds (start_counted h)).counted
  obtain ⟨l, hl, rfl⟩ := List.mem_map.mp hfirst
  obtain ⟨queued, heard, hdelivered, hheard, hperm, hturn⟩ :=
    hran'.hears trivial hcounted (hcounted.numbers l hl) hlast
  obtain ⟨word, hword, _, hbalanced⟩ := hran'.records
  have hsame : ((w.after before).after during).history = (w.after before).history ++ queued := by
    rw [history, history, hdone, hdone', hdelivered, List.append_nil, List.append_nil]
  obtain rfl : word = queued := List.append_cancel_left (hword.symm.trans hsame)
  exact ⟨word, heard, hword, hdelivered, hbalanced trivial, hheard, hperm, fun hclear => hturn ⟨hclear, .nil⟩⟩

/-- A file is loaded, and somebody joins who forgets it on hearing of a `began`. -/
def forgetful : List Command :=
  [.request (.load ⟨"/p/a.ned"⟩),
    .listen (some .began) 1 false (some (.request (.forget ⟨"/p/a.ned"⟩)))]

/-- The listener who was there first hears of the events of a new configuration in turn, though the next
one gives a command on hearing of the first of them. -/
theorem heard_throughout_first : ∃ w w₁ w₂ : World,
    World.start (.map (SortedMap.insert {} ⟨"/p/a.ned"⟩ "")) (.fixed [⟨"p", ⟨"/p"⟩, [⟨""⟩], []⟩]) = .ok w ∧
    w.after forgetful = w₁ ∧ w₁.after [.request .reconfigure] = w₂ ∧
    ∃ queued, w₂.delivered = w₁.delivered ++ queued ∧ w₂.heard 0 = w₁.heard 0 ++ queued ∧
      Balanced queued := by
  obtain ⟨w, hw, hfirst, hlast, hclear⟩ : ∃ w : World,
      World.start (.map (SortedMap.insert {} ⟨"/p/a.ned"⟩ "")) (.fixed [⟨"p", ⟨"/p"⟩, [⟨""⟩], []⟩]) = .ok w ∧
      (w.after forgetful).Registered 0 ∧
      ((w.after forgetful).after [.request .reconfigure]).Registered 0 ∧
      Unhindered 0 (w.after forgetful).listeners :=
    ⟨_, rfl, by decide +kernel, by decide +kernel, by decide +kernel⟩
  obtain ⟨queued, heard, _, hdelivered, hbalanced, hheard, _, hturn⟩ :=
    heard_throughout hw (by decide) hfirst hlast
  obtain rfl := hturn hclear
  exact ⟨w, _, _, hw, rfl, rfl, heard, hdelivered, hheard, hbalanced⟩

/-- The one who comes after the listener with the command hears of the first event last, after the
bracket that it opens was closed. -/
theorem heard_out_of_turn : ∃ w w₁ w₂ : World,
    World.start (.map (SortedMap.insert {} ⟨"/p/a.ned"⟩ "")) (.fixed [⟨"p", ⟨"/p"⟩, [⟨""⟩], []⟩]) = .ok w ∧
    w.after (forgetful ++ [.listen none 0 false none]) = w₁ ∧
    w₁.after [.request .reconfigure] = w₂ ∧ w₁.Registered 2 ∧ w₂.Registered 2 ∧
    (w₂.delivered.drop w₁.delivered.length).map sort = [.began, .ended, .modelChanged, .fileRemoved] ∧
    w₁.heard 2 = [] ∧ (w₂.heard 2).map sort = [.ended, .modelChanged, .fileRemoved, .began] ∧
    ¬ Nested (w₂.heard 2) := by
  refine ⟨_, _, _, rfl, rfl, rfl, ?_⟩
  refine ⟨by decide +kernel, by decide +kernel, by decide +kernel, by decide +kernel, by decide +kernel, ?_⟩
  exact fun h => absurd (h 1) (by decide +kernel)

end World

end NedWorkspace
