import TourMap.Proofs.Xml.Written
import TourMap.TrackFile.Gpx

/-!
# GpxElements: what the nodes of a GPX document do to what was gathered

A node without a meaning gathers nothing, but may part the elements before it from those after it
(`leads_foreign`). An element with a meaning may follow only if no other node parts it from the one
before it (`leads_child`, `fails_of_past`). Text that still goes on is counted with the elements that
were met, since it parts them as soon as it ends (`settle`).
-/

namespace TourMap.Gpx

open Xml (Event Name Attribute Node WrittenTag Passage eventsFrom)

/-! ## 1. Events -/

variable {q q' : Progress} {events more : List Event} {err : GpxError}

theorem run_append (h : q.run events = .ok q') : q.run (events ++ more) = q'.run more := by
  unfold Progress.run at h ⊢
  rw [List.foldlM_append, h]
  rfl

theorem run_append_error (h : q.run events = .error err) : q.run (events ++ more) = .error err := by
  unfold Progress.run at h ⊢
  rw [List.foldlM_append, h]
  rfl

theorem run_cons {event : Event} (h : q.step event = .ok q') :
    q.run (event :: more) = q'.run more := by
  unfold Progress.run
  rw [List.foldlM_cons, h]
  rfl

theorem run_cons_error {event : Event} (h : q.step event = .error err) :
    q.run (event :: more) = .error err := by
  unfold Progress.run
  rw [List.foldlM_cons, h]
  rfl

/-! ## 2. Elements without a meaning -/

variable {tours : List (List (GeoPoint Double))} {points : List (GeoPoint Double)}
  {opened : List OpenElement}

theorem run_unknown_text (p : Passage) (k : Nat) :
    Progress.run ⟨tours, points, opened, k + 1⟩ p.event?.toList =
      .ok ⟨tours, points, opened, k + 1⟩ := by
  unfold Passage.event?
  split <;> rfl

mutual

/-- What an element without a meaning holds is skipped, elements with a meaning elsewhere too. -/
theorem run_unknown_node (n : Node) (p : Passage) (k : Nat) :
    Progress.run ⟨tours, points, opened, k + 1⟩ (n.events p) =
      .ok ⟨tours, points, opened, k + 1⟩ := by
  cases n with
  | element tag content closing =>
    rw [Node.events, run_append (run_unknown_text p k)]
    refine (run_cons rfl).trans ?_
    rw [run_append (run_unknown_nodes content .empty (k + 1))]
    rfl
  | instruction target content => exact run_unknown_text p k
  | chars text => rfl
  | reference name c => rfl
  | literal text => rfl
  | comment text => rfl
termination_by structural n

theorem run_unknown_nodes (nodes : List Node) (p : Passage) (k : Nat) :
    Progress.run ⟨tours, points, opened, k + 1⟩ (eventsFrom p nodes) =
      .ok ⟨tours, points, opened, k + 1⟩ := by
  cases nodes with
  | nil => exact run_unknown_text p k
  | cons n rest =>
    rw [eventsFrom, run_append (run_unknown_node n p k)]
    exact run_unknown_nodes rest (n.passage p) k
termination_by structural nodes

end

/-! ## 3. Text between elements -/

/-- Which children an element has had when a passage of text ends. -/
def settle (s : Children) (p : Passage) : Children := if p.event?.isSome then s.interrupt else s

/-- Whether children are the same, or parted from those that may follow. -/
def Children.MayBecome (s s' : Children) : Prop := s' = s ∨ s' = s.interrupt

theorem Children.interrupt_interrupt (s : Children) : s.interrupt.interrupt = s.interrupt := by
  cases s <;> rfl

theorem Children.MayBecome.trans {s s' s'' : Children} (h : s.MayBecome s')
    (hmore : s'.MayBecome s'') : s.MayBecome s'' := by
  rcases h with rfl | rfl
  · exact hmore
  · rcases hmore with rfl | rfl
    · exact .inr rfl
    · exact .inr s.interrupt_interrupt

theorem settle_of_isSome {p : Passage} (h : p.event?.isSome = true) (s : Children) :
    settle s p = s.interrupt := if_pos h

theorem isSome_event? {p : Passage} :
    p.event?.isSome = true ↔ p.counts = true ∧ p.chars ≠ [] := by
  unfold Passage.event?
  split <;> simp_all

/-- Text that counts does so with more characters. -/
theorem isSome_add {p : Passage} (h : p.event?.isSome = true) (c : Char) :
    (p.add c).event?.isSome = true := by
  obtain ⟨hcounts, hchars⟩ := isSome_event?.1 h
  rw [isSome_event?]
  unfold Passage.add
  split
  · rw [if_neg (by simpa using hchars)]
    exact ⟨hcounts, nofun⟩
  · exact ⟨rfl, nofun⟩

theorem isSome_addLiteral {p : Passage} (h : p.event?.isSome = true) (c : Char) :
    (p.addLiteral c).event?.isSome = true := by
  rw [isSome_event?]
  unfold Passage.addLiteral
  rw [(isSome_event?.1 h).1]
  exact ⟨rfl, nofun⟩

theorem isSome_foldl {add : Passage → Char → Passage}
    (hadd : ∀ p c, p.event?.isSome = true → (add p c).event?.isSome = true) {p : Passage}
    (h : p.event?.isSome = true) (text : List Char) :
    (text.foldl add p).event?.isSome = true := by
  induction text generalizing p with
  | nil => exact h
  | cons c rest ih => exact ih (hadd p c h)

theorem isSome_passage {n : Node} {p : Passage} (hn : n.events p = [])
    (h : p.event?.isSome = true) : (n.passage p).event?.isSome = true := by
  cases n with
  | element tag content closing => simp [Node.events] at hn
  | instruction target content =>
    rw [Node.events, Option.toList_eq_nil_iff] at hn
    rw [hn] at h
    cases h
  | chars text => exact isSome_foldl (fun p c hp => isSome_add hp c) h text
  | literal text => exact isSome_foldl (fun p c hp => isSome_addLiteral hp c) h text
  | reference name c => exact isSome_addLiteral h c
  | comment text => exact h

/-! ## 4. Nodes without a meaning -/

/-- What was gathered. -/
structure Gathered where
  /-- The tours, the last one first. -/
  tours : List (List (GeoPoint Double))
  /-- The points of the segment that is open, the last one first. -/
  points : List (GeoPoint Double)

/-- A reading within an element that has a meaning. -/
def Gathered.inside (g : Gathered) (e : Element) (s : Children) (outer : List OpenElement) :
    Progress :=
  ⟨g.tours, g.points, ⟨e, s⟩ :: outer, 0⟩

variable {g g' : Gathered} {e c : Element} {s s' : Children} {outer : List OpenElement}
  {p p' p'' : Passage} {n : Node} {nodes others rest : List Node} {name : String}

theorem run_flush (g : Gathered) (e : Element) (s : Children) (outer : List OpenElement)
    (p : Passage) :
    (g.inside e s outer).run p.event?.toList = .ok (g.inside e (settle s p) outer) := by
  unfold settle Passage.event?
  split <;> rfl

/-- What nodes do, whatever comes after them. -/
def Leads (q : Progress) (p : Passage) (nodes : List Node) (q' : Progress) (p' : Passage) : Prop :=
  ∀ rest, q.run (eventsFrom p (nodes ++ rest)) = q'.run (eventsFrom p' rest)

theorem Leads.append {q'' : Progress} (h : Leads q p nodes q' p')
    (hmore : Leads q' p' others q'' p'') : Leads q p (nodes ++ others) q'' p'' := by
  intro rest
  rw [List.append_assoc, h, hmore]

theorem Leads.single (h : q.run (n.events p) = .ok q') : Leads q p [n] q' (n.passage p) :=
  fun _ => run_append h

/-- Whether a node is an element with a name. -/
def IsNamed (name : String) : Node → Prop
  | .element tag _ _ => tag.name = .plain name
  | _ => False

/-- Whether a node is no element with a meaning inside of an element. -/
def IsForeign (e : Element) (n : Node) : Prop :=
  ∀ name, e.childName? = some name → ¬ IsNamed name n

/-- An element without a meaning, of which only the name counts. -/
theorem run_foreign {tag : WrittenTag} {content : List Node} {closing : Option (List Char)}
    (hn : IsForeign e (.element tag content closing)) (g : Gathered) (s : Children)
    (outer : List OpenElement) (p : Passage) :
    ∃ s', (g.inside e s outer).run ((Node.element tag content closing).events p) =
      .ok (g.inside e s' outer) ∧ (settle s p).MayBecome s' ∧
      (e.childName? ≠ none → s' = (settle s p).interrupt) := by
  have hcontent (s : Children) : Progress.run ⟨g.tours, g.points, ⟨e, s⟩ :: outer, 1⟩
      (eventsFrom .empty content ++ [.finish]) = .ok (g.inside e s outer) := by
    rw [run_append (run_unknown_nodes content .empty 0)]
    rfl
  rw [Node.events, run_append (run_flush g e s outer p)]
  cases hname : e.childName? with
  | none =>
    refine ⟨settle s p, ?_, .inl rfl, fun h => absurd rfl h⟩
    refine (run_cons ?_).trans (hcontent _)
    show Progress.start _ _ _ _ _ = _
    unfold Progress.start
    simp only [hname]
    rfl
  | some expected =>
    refine ⟨(settle s p).interrupt, ?_, .inr rfl, fun _ => rfl⟩
    refine (run_cons ?_).trans (hcontent _)
    show Progress.start _ _ _ _ _ = _
    unfold Progress.start
    simp only [hname]
    have hother : tag.name ≠ .plain expected := hn expected hname
    rw [if_neg hother]
    rfl

theorem settle_passage (hn : n.events p = []) (s : Children) :
    (settle s p).MayBecome (settle s (n.passage p)) := by
  cases h : p.event?.isSome with
  | true =>
    rw [settle_of_isSome h, settle_of_isSome (isSome_passage hn h)]
    exact .inl rfl
  | false =>
    rw [settle, if_neg (by simp [h])]
    unfold settle
    split
    · exact .inr rfl
    · exact .inl rfl

/-- A node that is no element with a meaning gathers nothing. -/
theorem leads_node (hn : IsForeign e n) (g : Gathered)
    (s : Children) (outer : List OpenElement) (p : Passage) :
    ∃ s', Leads (g.inside e s outer) p [n] (g.inside e s' outer) (n.passage p) ∧
      (settle s p).MayBecome (settle s' (n.passage p)) := by
  have hkept (hevents : n.events p = []) :
      Leads (g.inside e s outer) p [n] (g.inside e s outer) (n.passage p) := by
    apply Leads.single
    rw [hevents]
    rfl
  cases n with
  | element tag content closing =>
    obtain ⟨s', hrun, hs', -⟩ := run_foreign hn g s outer p
    exact ⟨s', .single hrun, hs'⟩
  | instruction target content =>
    exact ⟨settle s p, .single (run_flush g e s outer p), .inl rfl⟩
  | chars text | reference name c | literal text | comment text =>
    exact ⟨s, hkept rfl, settle_passage rfl s⟩

theorem leads_foreign (hnodes : ∀ n ∈ nodes, IsForeign e n) (g : Gathered) (s : Children)
    (outer : List OpenElement) (p : Passage) :
    ∃ s' p', Leads (g.inside e s outer) p nodes (g.inside e s' outer) p' ∧
      (settle s p).MayBecome (settle s' p') := by
  induction nodes generalizing s p with
  | nil => exact ⟨s, p, fun _ => rfl, .inl rfl⟩
  | cons n rest ih =>
    obtain ⟨s₁, hfirst, hs₁⟩ := leads_node (hnodes n List.mem_cons_self) g s outer p
    obtain ⟨s', p', hrest, hs'⟩ :=
      ih (fun m hm => hnodes m (List.mem_cons_of_mem _ hm)) s₁ (n.passage p)
    exact ⟨s', p', hfirst.append hrest, hs₁.trans hs'⟩

/-! ## 5. Elements with a meaning -/

/-- An element with a meaning begins, if nothing parts it from the one before it. -/
theorem step_child (hname : e.childName? = some name) {attributes : List Attribute}
    (hchild : e.child attributes = .ok c) (hs : s ≠ .past) (g : Gathered)
    (outer : List OpenElement) :
    (g.inside e s outer).step (.start (.plain name) attributes) =
      .ok (g.inside c .absent (⟨e, .adjacent⟩ :: outer)) := by
  show Progress.start _ _ _ _ _ = _
  unfold Progress.start
  simp only [hname, if_true]
  rw [if_neg hs, hchild]
  rfl

theorem step_child_past (hname : e.childName? = some name) (attributes : List Attribute)
    (g : Gathered) (outer : List OpenElement) :
    (g.inside e .past outer).step (.start (.plain name) attributes) = .error (.apart name) := by
  show Progress.start _ _ _ _ _ = _
  unfold Progress.start
  simp only [hname, if_true]

/-- What is in an element with a meaning is read where the element begins. -/
theorem run_child (hname : e.childName? = some name) {tag : WrittenTag} {content : List Node}
    {closing : Option (List Char)} (htag : tag.name = .plain name)
    (hchild : e.child tag.data = .ok c) (hs : settle s p ≠ .past) (g : Gathered)
    (outer : List OpenElement) :
    (g.inside e s outer).run ((Node.element tag content closing).events p) =
      (g.inside c .absent (⟨e, .adjacent⟩ :: outer)).run
        (eventsFrom .empty content ++ [.finish]) := by
  rw [Node.events, run_append (run_flush g e s outer p), htag]
  exact run_cons (step_child hname hchild hs g outer)

/-- An element with a meaning that another node parts from the one before it. -/
theorem fails_of_past (hname : e.childName? = some name) (hn : IsNamed name n)
    (hs : settle s p = .past) (g : Gathered) (outer : List OpenElement) (rest : List Node) :
    (g.inside e s outer).run (eventsFrom p (n :: rest)) = .error (.apart name) := by
  cases n with
  | element tag content closing =>
    have htag : tag.name = .plain name := hn
    rw [eventsFrom]
    apply run_append_error
    rw [Node.events, run_append (run_flush g e s outer p), hs, htag]
    exact run_cons_error (step_child_past hname tag.data g outer)
  | _ => exact hn.elim

end TourMap.Gpx
