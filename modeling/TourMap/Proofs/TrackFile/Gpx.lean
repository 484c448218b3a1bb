import TourMap.Proofs.TrackFile.GpxElements
import TourMap.Proofs.Xml.Documents

/-!
# Gpx: what is written in a GPX document is read back

A document holds tracks, these hold segments, and these hold points; whatever else stands before,
after, inside or between them, it gives the segments of all its tracks as tours
(`reads_back_segments`). Only what may part two neighbours of one kind may not stand between them,
and no point may lack a coordinate: then nothing is read.
-/

namespace TourMap.Gpx

open Xml (Event Name Attribute Node WrittenTag WrittenAttribute Passage Blanks eventsFrom)

/-! ## 1. Documents with tracks -/

/-- Whether a node may stand between elements without parting them. -/
def IsSilent : Node → Prop
  | .element _ _ _ => False
  | .chars text => Blanks text
  | .reference _ c => Xml.isBlank c = true
  | .literal text => Blanks text
  | .comment _ => True
  | .instruction _ _ => True

section

variable {α : Type}

/-- Elements one after the other that nothing parts, and what each of them stands for. -/
inductive Adjoin (P : Node → α → Prop) : List Node → List α → Prop
  | nil : Adjoin P [] []
  | silent {n : Node} {nodes : List Node} {items : List α} (hn : IsSilent n)
    (hrest : Adjoin P nodes items) : Adjoin P (n :: nodes) items
  | item {n : Node} {a : α} {nodes : List Node} {items : List α} (hn : P n a)
    (hrest : Adjoin P nodes items) : Adjoin P (n :: nodes) (a :: items)

/-- Whether nodes hold such elements, and no others of their name. -/
def Lists (name : String) (P : Node → α → Prop) (nodes : List Node) (items : List α) : Prop :=
  ∃ before group after, nodes = before ++ (group ++ after) ∧
    (∀ n ∈ before, ¬ IsNamed name n) ∧ (∀ n ∈ after, ¬ IsNamed name n) ∧ Adjoin P group items

/-- Whether a node is an element that holds others, in between whatever else it holds. -/
def Holds (name child : String) (P : Node → α → Prop) (n : Node) (items : List α) : Prop :=
  ∃ tag content closing, n = .element tag content closing ∧ tag.name = .plain name ∧
    Lists child P content items

end

/-- Whether attributes give a coordinate, once and in a text that denotes it. -/
def HasCoordinate (name : String) (x : Double) (attributes : List Attribute) : Prop :=
  ∃ value, attributes.filter (·.name == .plain name) = [⟨.plain name, value⟩] ∧
    Binary.ofText? double value = some x

def IsPoint (n : Node) (p : GeoPoint Double) : Prop :=
  ∃ tag content closing, n = .element tag content closing ∧ tag.name = .plain "trkpt" ∧
    HasCoordinate "lat" p.latitude tag.read ∧ HasCoordinate "lon" p.longitude tag.read

abbrev IsSegment : Node → List (GeoPoint Double) → Prop := Holds "trkseg" "trkpt" IsPoint

abbrev IsTrack : Node → List (List (GeoPoint Double)) → Prop := Holds "trk" "trkseg" IsSegment

/-- Whether an outermost element, of whatever name, holds tracks. -/
def IsGpx (root : Node) (tracks : List (List (List (GeoPoint Double)))) : Prop :=
  ∃ tag content closing, root = .element tag content closing ∧
    Lists "trk" IsTrack content tracks

/-! ## 2. Changes to documents -/

/-- Whether a node parts elements of a name that it stands between. -/
def Parts (name : String) : Node → Prop
  | .element tag _ _ => tag.name ≠ .plain name
  | .chars text => ¬ Blanks text
  | .reference _ c => Xml.isBlank c = false
  | .literal text => ¬ Blanks text
  | .comment _ => False
  | .instruction _ _ => False

/-- Adds a node between two elements of a name that parts them. -/
def AddsBetween (name : String) (nodes edited : List Node) : Prop :=
  ∃ left n right, nodes = left ++ right ∧ edited = left ++ n :: right ∧ Parts name n ∧
    (∃ a ∈ left, IsNamed name a) ∧ ∃ b ∈ right, IsNamed name b

/-- A tag without its attribute of a name. -/
def without (tag : WrittenTag) (name : String) : WrittenTag :=
  { tag with attributes := tag.attributes.filter (·.name != .plain name) }

/-- Takes an attribute away from one of the points of a segment. -/
def Drops (name : String) (nodes edited : List Node) : Prop :=
  ∃ left tag content closing right, tag.name = .plain "trkpt" ∧
    nodes = left ++ .element tag content closing :: right ∧
    edited = left ++ .element (without tag name) content closing :: right

/-- Changes what is in one element of a name. -/
def Inside (name : String) (E : List Node → List Node → Prop) (nodes edited : List Node) : Prop :=
  ∃ left tag content content' closing right, tag.name = .plain name ∧ E content content' ∧
    nodes = left ++ .element tag content closing :: right ∧
    edited = left ++ .element tag content' closing :: right

/-- Parts two tracks, two segments of a track or two points of a segment. -/
inductive PartsNeighbours : String → List Node → List Node → Prop
  | tracks {nodes edited : List Node} (h : AddsBetween "trk" nodes edited) :
    PartsNeighbours "trk" nodes edited
  | segments {nodes edited : List Node} (h : Inside "trk" (AddsBetween "trkseg") nodes edited) :
    PartsNeighbours "trkseg" nodes edited
  | points {nodes edited : List Node}
    (h : Inside "trk" (Inside "trkseg" (AddsBetween "trkpt")) nodes edited) :
    PartsNeighbours "trkpt" nodes edited

/-- Takes a coordinate away from one point of one segment of one track. -/
def TakesCoordinate (name : String) : List Node → List Node → Prop :=
  Inside "trk" (Inside "trkseg" (Drops name))

/-- Changes what is in an outermost element. -/
def Edits (E : List Node → List Node → Prop) (root edited : Node) : Prop :=
  ∃ tag content content' closing, E content content' ∧ root = .element tag content closing ∧
    edited = .element tag content' closing

/-! ## 3. Elements of one name -/

variable {α : Type} {P : Node → α → Prop} {e c : Element} {name child : String}
  {effect : Gathered → α → Gathered} {g : Gathered} {s : Children} {outer : List OpenElement}
  {p : Passage} {n : Node} {nodes : List Node} {items : List α} {err : GpxError}

/-- Whether nothing parts what comes next from the elements so far. -/
def Undivided (s : Children) (p : Passage) : Prop :=
  s = .absent ∨ s = .adjacent ∧ p.counts = false

theorem settle_adjacent (h : p.counts = false) : settle .adjacent p = .adjacent := by
  unfold settle Passage.event?
  rw [h]
  rfl

theorem settle_absent (p : Passage) : settle .absent p = .absent := by
  unfold settle
  split <;> rfl

theorem Undivided.settle_ne_past (h : Undivided s p) : settle s p ≠ .past := by
  rcases h with rfl | ⟨rfl, hcounts⟩
  · rw [settle_absent]
    exact nofun
  · rw [settle_adjacent hcounts]
    exact nofun

theorem counts_foldl_add {text : List Char} (htext : Blanks text) (hp : p.counts = false) :
    (text.foldl Passage.add p).counts = false := by
  induction text generalizing p with
  | nil => exact hp
  | cons c rest ih =>
    apply ih fun d hd => htext d (List.mem_cons_of_mem _ hd)
    unfold Passage.add
    rw [if_pos (htext c List.mem_cons_self)]
    split <;> exact hp

theorem counts_addLiteral {c : Char} (hc : Xml.isBlank c = true) (hp : p.counts = false) :
    (p.addLiteral c).counts = false := by
  unfold Passage.addLiteral
  rw [hp, hc]
  rfl

theorem counts_foldl_addLiteral {text : List Char} (htext : Blanks text)
    (hp : p.counts = false) : (text.foldl Passage.addLiteral p).counts = false := by
  induction text generalizing p with
  | nil => exact hp
  | cons c rest ih =>
    exact ih (fun d hd => htext d (List.mem_cons_of_mem _ hd))
      (counts_addLiteral (htext c List.mem_cons_self) hp)

theorem leads_silent (hn : IsSilent n) (h : Undivided s p) (g : Gathered) (e : Element)
    (outer : List OpenElement) :
    ∃ s', Leads (g.inside e s outer) p [n] (g.inside e s' outer) (n.passage p) ∧
      Undivided s' (n.passage p) := by
  have hkept (hevents : n.events p = [])
      (hcounts : p.counts = false → (n.passage p).counts = false) :
      ∃ s', Leads (g.inside e s outer) p [n] (g.inside e s' outer) (n.passage p) ∧
        Undivided s' (n.passage p) := by
    refine ⟨s, .single ?_, h.imp id fun h => ⟨h.1, hcounts h.2⟩⟩
    rw [hevents]
    rfl
  cases n with
  | element tag content closing => exact hn.elim
  | instruction target content =>
    refine ⟨settle s p, .single (run_flush g e s outer p), ?_⟩
    rcases h with rfl | ⟨rfl, hcounts⟩
    · exact .inl (settle_absent p)
    · exact .inr ⟨settle_adjacent hcounts, rfl⟩
  | chars text => exact hkept rfl (counts_foldl_add hn)
  | literal text => exact hkept rfl (counts_foldl_addLiteral hn)
  | reference name c => exact hkept rfl (counts_addLiteral hn)
  | comment text => exact hkept rfl id

/-- What elements of one name add to what was gathered, if nothing parts them. -/
structure Adds (e : Element) (name : String) (P : Node → α → Prop)
    (effect : Gathered → α → Gathered) : Prop where
  childName : e.childName? = some name
  named : ∀ {n : Node} {a : α}, P n a → IsNamed name n
  run : ∀ {n : Node} {a : α}, P n a → ∀ (g : Gathered) (s : Children) (outer : List OpenElement)
    (p : Passage), settle s p ≠ .past →
    (g.inside e s outer).run (n.events p) = .ok ((effect g a).inside e .adjacent outer)

theorem IsNamed.passage_eq (hn : IsNamed name n) (p : Passage) : n.passage p = .empty := by
  cases n with
  | element tag content closing => rfl
  | _ => exact hn.elim

theorem Adds.leads (h : Adds e name P effect) {a : α} (hn : P n a) (hs : settle s p ≠ .past)
    (g : Gathered) (outer : List OpenElement) :
    Leads (g.inside e s outer) p [n] ((effect g a).inside e .adjacent outer) .empty := by
  rw [← (h.named hn).passage_eq p]
  exact .single (h.run hn g s outer p hs)

theorem Adds.leads_adjoin (h : Adds e name P effect) (hnodes : Adjoin P nodes items)
    (hs : Undivided s p) (g : Gathered) (outer : List OpenElement) :
    ∃ s' p', Leads (g.inside e s outer) p nodes ((items.foldl effect g).inside e s' outer) p' ∧
      Undivided s' p' := by
  induction hnodes generalizing g s p with
  | nil => exact ⟨s, p, fun _ => rfl, hs⟩
  | silent hn _ ih =>
    obtain ⟨s₁, hfirst, hs₁⟩ := leads_silent hn hs g e outer
    obtain ⟨s', p', hrest, hs'⟩ := ih hs₁ g
    exact ⟨s', p', hfirst.append hrest, hs'⟩
  | @item n a _ _ hn _ ih =>
    obtain ⟨s', p', hrest, hs'⟩ := ih (p := .empty) (.inr ⟨rfl, rfl⟩) (effect g a)
    exact ⟨s', p', (h.leads hn hs.settle_ne_past g outer).append hrest, hs'⟩

/-- Before the first element of a name whatever stands there parts nothing. -/
theorem leads_before (hnodes : ∀ n ∈ nodes, IsForeign e n) (g : Gathered)
    (outer : List OpenElement) :
    ∃ p', Leads (g.inside e .absent outer) .empty nodes (g.inside e .absent outer) p' := by
  obtain ⟨s', p', hleads, hs'⟩ := leads_foreign hnodes g .absent outer .empty
  have habsent : settle s' p' = .absent := by rcases hs' with h | h <;> exact h
  obtain rfl : s' = .absent := by
    revert habsent
    unfold settle
    cases s' <;> split <;> simp [Children.interrupt]
  exact ⟨p', hleads⟩

theorem isForeign (hname : e.childName? = some name) (hnodes : ∀ n ∈ nodes, ¬ IsNamed name n) :
    ∀ n ∈ nodes, IsForeign e n := by
  intro n hn expected hexpected
  obtain rfl := Option.some.inj (hname.symm.trans hexpected)
  exact hnodes n hn

theorem Adds.run_content (h : Adds e name P effect) (hlists : Lists name P nodes items)
    (g : Gathered) (outer : List OpenElement) :
    ∃ s', (g.inside e .absent outer).run (eventsFrom .empty nodes) =
      .ok ((items.foldl effect g).inside e s' outer) := by
  obtain ⟨before, group, after, rfl, hbefore, hafter, hgroup⟩ := hlists
  obtain ⟨p₁, hfirst⟩ := leads_before (isForeign h.childName hbefore) g outer
  obtain ⟨s₂, p₂, hsecond, -⟩ := h.leads_adjoin hgroup (.inl rfl) (p := p₁) g outer
  obtain ⟨s₃, p₃, hthird, -⟩ :=
    leads_foreign (isForeign h.childName hafter) (items.foldl effect g) s₂ outer p₂
  have hall := (hfirst.append (hsecond.append hthird)) []
  rw [List.append_nil] at hall
  rw [hall]
  exact ⟨_, run_flush _ _ _ _ _⟩

/-! ## 4. Documents that are read -/

theorem Adds.holds (h : Adds c child P effect) (hname : e.childName? = some name)
    (hchild : ∀ attributes, e.child attributes = .ok c) {close : Gathered → Gathered}
    (hclose : ∀ (g : Gathered) (s : Children) (outer : List OpenElement),
      (g.inside c s outer).step .finish = .ok ⟨(close g).tours, (close g).points, outer, 0⟩) :
    Adds e name (Holds name child P) fun g items => close (items.foldl effect g) where
  childName := hname
  named := by
    rintro n items ⟨tag, content, closing, rfl, htag, -⟩
    exact htag
  run := by
    rintro n items ⟨tag, content, closing, rfl, htag, hlists⟩ g s outer p hs
    obtain ⟨s', hcontent⟩ := h.run_content hlists g (⟨e, .adjacent⟩ :: outer)
    rw [run_child hname htag (hchild _) hs, run_append hcontent]
    exact run_cons (hclose _ s' _)

/-- A coordinate is none of the attributes that declare name spaces. -/
theorem filter_isData {name : String} (hname : name ≠ "xmlns") (attributes : List Attribute) :
    (attributes.filter (·.isData)).filter (·.name == .plain name) =
      attributes.filter (·.name == .plain name) := by
  rw [List.filter_filter]
  apply List.filter_congr
  intro a _
  cases h : a.name == Name.plain name with
  | false => rfl
  | true =>
    have ha : a.name = .plain name := eq_of_beq h
    have hdata : a.isData = true := by
      unfold Attribute.isData Attribute.declaresSpace Attribute.declaresDefault
      rw [ha]
      simp [Name.plain, hname]
    rw [hdata]
    rfl

theorem coordinate?_eq_some {name : String} (hname : name ≠ "xmlns") {x : Double}
    {attributes : List Attribute} (h : HasCoordinate name x attributes) :
    coordinate? name (attributes.filter (·.isData)) = .ok (some x) := by
  obtain ⟨value, hvalue, hread⟩ := h
  unfold coordinate?
  rw [← List.head?_filter, filter_isData hname, hvalue]
  simp only [List.head?_cons, hread]

theorem coordinate?_eq_none {name : String} (hname : name ≠ "xmlns") {attributes : List Attribute}
    (h : attributes.filter (·.name == .plain name) = []) :
    coordinate? name (attributes.filter (·.isData)) = .ok none := by
  unfold coordinate?
  rw [← List.head?_filter, filter_isData hname, h]
  rfl

theorem child_segment {attributes : List Attribute} {latitude longitude : Option Double}
    (hlat : coordinate? "lat" attributes = .ok latitude)
    (hlon : coordinate? "lon" attributes = .ok longitude) :
    Element.segment.child attributes = .ok (.point latitude longitude) := by
  show (do return Element.point (← coordinate? "lat" _) (← coordinate? "lon" _)) = _
  rw [hlat, hlon]
  rfl

/-- A point ends as it was begun, whatever it holds. -/
theorem run_point (latitude longitude : Option Double) (content : List Node) (g : Gathered)
    (outer : List OpenElement) :
    ∃ s', (g.inside (.point latitude longitude) .absent outer).run (eventsFrom .empty content) =
      .ok (g.inside (.point latitude longitude) s' outer) := by
  have hforeign : ∀ n ∈ content, IsForeign (.point latitude longitude) n :=
    fun n _ name hname => nomatch hname
  obtain ⟨s', p', hleads, -⟩ := leads_foreign hforeign g .absent outer .empty
  have hall := hleads []
  rw [List.append_nil] at hall
  rw [hall]
  exact ⟨_, run_flush _ _ _ _ _⟩

def Gathered.addPoint (g : Gathered) (p : GeoPoint Double) : Gathered :=
  { g with points := p :: g.points }

def Gathered.addSegment (g : Gathered) (points : List (GeoPoint Double)) : Gathered :=
  ⟨(g.points.reverse ++ points) :: g.tours, []⟩

def Gathered.addTrack (g : Gathered) (segments : List (List (GeoPoint Double))) : Gathered :=
  segments.foldl addSegment g

theorem adds_point : Adds .segment "trkpt" IsPoint Gathered.addPoint where
  childName := rfl
  named := by
    rintro n p ⟨tag, content, closing, rfl, htag, -⟩
    exact htag
  run := by
    rintro n ⟨latitude, longitude⟩ ⟨tag, content, closing, rfl, htag, hlat, hlon⟩ g s outer p hs
    have hchild : Element.segment.child tag.data = .ok (.point (some latitude) (some longitude)) :=
      child_segment (coordinate?_eq_some (by decide) hlat) (coordinate?_eq_some (by decide) hlon)
    obtain ⟨s', hcontent⟩ := run_point (some latitude) (some longitude) content g
      (⟨.segment, .adjacent⟩ :: outer)
    rw [run_child rfl htag hchild hs, run_append hcontent]
    exact run_cons rfl

theorem foldl_addPoint (points : List (GeoPoint Double)) (g : Gathered) :
    points.foldl Gathered.addPoint g = ⟨g.tours, points.reverse ++ g.points⟩ := by
  induction points generalizing g with
  | nil => rfl
  | cons p rest ih =>
    rw [List.foldl_cons, ih, List.reverse_cons, List.append_assoc]
    rfl

theorem foldl_addSegment (segments : List (List (GeoPoint Double)))
    (tours : List (List (GeoPoint Double))) :
    segments.foldl Gathered.addSegment ⟨tours, []⟩ = ⟨segments.reverse ++ tours, []⟩ := by
  induction segments generalizing tours with
  | nil => rfl
  | cons points rest ih =>
    rw [List.foldl_cons, Gathered.addSegment, ih, List.reverse_cons, List.append_assoc]
    rfl

theorem foldl_addTrack (tracks : List (List (List (GeoPoint Double))))
    (tours : List (List (GeoPoint Double))) :
    tracks.foldl Gathered.addTrack ⟨tours, []⟩ = ⟨tracks.flatten.reverse ++ tours, []⟩ := by
  induction tracks generalizing tours with
  | nil => rfl
  | cons segments rest ih =>
    rw [List.foldl_cons, Gathered.addTrack, foldl_addSegment, ih, List.flatten_cons,
      List.reverse_append, List.append_assoc]

theorem adds_segment : Adds .track "trkseg" IsSegment Gathered.addSegment := by
  let close (g : Gathered) : Gathered := ⟨g.points.reverse :: g.tours, []⟩
  have hclose (g : Gathered) (s : Children) (outer : List OpenElement) :
      (g.inside .segment s outer).step .finish =
        .ok ⟨(close g).tours, (close g).points, outer, 0⟩ := rfl
  have h : Adds .track "trkseg" IsSegment _ := adds_point.holds rfl (fun _ => rfl) hclose
  have heffect : (fun (g : Gathered) points => close (points.foldl Gathered.addPoint g)) =
      Gathered.addSegment := by
    funext g points
    show (⟨(points.foldl Gathered.addPoint g).points.reverse :: _, []⟩ : Gathered) = _
    rw [foldl_addPoint, List.reverse_append, List.reverse_reverse]
    rfl
  exact heffect ▸ h

theorem adds_track : Adds .document "trk" IsTrack Gathered.addTrack := by
  have hclose (g : Gathered) (s : Children) (outer : List OpenElement) :
      (g.inside .track s outer).step .finish = .ok ⟨(id g).tours, (id g).points, outer, 0⟩ := rfl
  exact adds_segment.holds rfl (fun _ => rfl) hclose

/-! ## 5. Documents that fail -/

theorem isSome_of_not_isBlank {c : Char} (hc : Xml.isBlank c = false) (p : Passage) :
    (p.add c).event?.isSome = true ∧ (p.addLiteral c).event?.isSome = true := by
  rw [isSome_event?, isSome_event?]
  unfold Passage.add Passage.addLiteral
  rw [hc, Bool.not_false, Bool.or_true]
  exact ⟨⟨rfl, nofun⟩, rfl, nofun⟩

/-- A text that is not blank counts. -/
theorem isSome_of_not_blanks {add : Passage → Char → Passage}
    (hadd : ∀ p c, p.event?.isSome = true → (add p c).event?.isSome = true)
    (hchar : ∀ p c, Xml.isBlank c = false → (add p c).event?.isSome = true) {text : List Char}
    (htext : ¬ Blanks text) (p : Passage) : (text.foldl add p).event?.isSome = true := by
  simp only [Blanks, not_forall] at htext
  obtain ⟨c, hc, hblank⟩ := htext
  obtain ⟨before, after, rfl⟩ := List.append_of_mem hc
  rw [List.foldl_append, List.foldl_cons]
  exact isSome_foldl hadd (hchar _ c (Bool.eq_false_iff.2 hblank)) after

theorem settle_interrupt (s : Children) (p : Passage) : (settle s p).interrupt = s.interrupt := by
  unfold settle
  split
  · exact s.interrupt_interrupt
  · rfl

/-- A node that parts elements does so wherever it stands. -/
theorem leads_parts (hname : e.childName? = some name) (hn : Parts name n) (g : Gathered)
    (s : Children) (outer : List OpenElement) (p : Passage) :
    ∃ s', Leads (g.inside e s outer) p [n] (g.inside e s' outer) (n.passage p) ∧
      settle s' (n.passage p) = (settle s p).interrupt := by
  have hkept (hevents : n.events p = []) (hsome : (n.passage p).event?.isSome = true) :
      ∃ s', Leads (g.inside e s outer) p [n] (g.inside e s' outer) (n.passage p) ∧
        settle s' (n.passage p) = (settle s p).interrupt := by
    refine ⟨s, .single ?_, ?_⟩
    · rw [hevents]
      rfl
    · rw [settle_of_isSome hsome, settle_interrupt]
  cases n with
  | element tag content closing =>
    have hforeign : IsForeign e (.element tag content closing) := by
      intro expected hexpected
      obtain rfl := Option.some.inj (hname.symm.trans hexpected)
      exact hn
    obtain ⟨s', hrun, -, hs'⟩ := run_foreign hforeign g s outer p
    exact ⟨s', .single hrun, hs' (by rw [hname]; exact nofun)⟩
  | instruction target content => exact hn.elim
  | comment text => exact hn.elim
  | chars text =>
    exact hkept rfl (isSome_of_not_blanks (fun p c hp => isSome_add hp c)
      (fun p c hc => (isSome_of_not_isBlank hc p).1) hn p)
  | literal text =>
    exact hkept rfl (isSome_of_not_blanks (fun p c hp => isSome_addLiteral hp c)
      (fun p c hc => (isSome_of_not_isBlank hc p).2) hn p)
  | reference name c => exact hkept rfl (isSome_of_not_isBlank hn p).2

theorem exists_first_named (h : ∃ a ∈ nodes, IsNamed name a) :
    ∃ left a right, nodes = left ++ a :: right ∧ IsNamed name a ∧ ∀ n ∈ left, ¬ IsNamed name n := by
  induction nodes with
  | nil =>
    obtain ⟨a, ha, -⟩ := h
    cases ha
  | cons n rest ih =>
    by_cases hn : IsNamed name n
    · exact ⟨[], n, rest, rfl, hn, nofun⟩
    · obtain ⟨a, ha, hnamed⟩ := h
      rcases List.mem_cons.1 ha with rfl | ha
      · exact absurd hnamed hn
      obtain ⟨left, b, right, rfl, hb, hleft⟩ := ih ⟨a, ha, hnamed⟩
      refine ⟨n :: left, b, right, rfl, hb, fun m hm => ?_⟩
      rcases List.mem_cons.1 hm with rfl | hm
      · exact hn
      · exact hleft m hm

theorem exists_last_named (h : ∃ a ∈ nodes, IsNamed name a) :
    ∃ left a right, nodes = left ++ a :: right ∧ IsNamed name a ∧
      ∀ n ∈ right, ¬ IsNamed name n := by
  obtain ⟨a, ha, hnamed⟩ := h
  obtain ⟨left, b, right, heq, hb, hleft⟩ :=
    exists_first_named ⟨a, List.mem_reverse.2 ha, hnamed⟩
  refine ⟨right.reverse, b, left.reverse, ?_, hb, fun n hn => hleft n (List.mem_reverse.1 hn)⟩
  rw [← List.reverse_reverse nodes, heq, List.reverse_append, List.reverse_cons,
    List.append_assoc]
  rfl

theorem IsNamed.not_isSilent (hn : IsNamed name n) : ¬ IsSilent n := by
  cases n with
  | element tag content closing => exact id
  | _ => exact hn.elim

/-- An element among others that nothing parts. -/
theorem Adjoin.split {left right : List Node} (h : Adjoin P (left ++ n :: right) items)
    (hn : IsNamed name n) :
    ∃ items₁ a items₂, Adjoin P left items₁ ∧ P n a ∧ items = items₁ ++ a :: items₂ := by
  induction left generalizing items with
  | nil =>
    cases h with
    | silent hsilent _ => exact absurd hsilent hn.not_isSilent
    | @item _ a _ items₂ ha _ => exact ⟨[], a, items₂, .nil, ha, rfl⟩
  | cons m left ih =>
    cases h with
    | silent hsilent hrest =>
      obtain ⟨items₁, a, items₂, hleft, ha, rfl⟩ := ih hrest
      exact ⟨items₁, a, items₂, .silent hsilent hleft, ha, rfl⟩
    | @item _ b _ _ hb hrest =>
      obtain ⟨items₁, a, items₂, hleft, ha, rfl⟩ := ih hrest
      exact ⟨b :: items₁, a, items₂, .item hb hleft, ha, rfl⟩

theorem exists_of_append_eq {first second left right : List Node}
    (h : first ++ second = left ++ n :: right) :
    (∃ more, left = first ++ more ∧ second = more ++ n :: right) ∨
      ∃ more, first = left ++ n :: more := by
  rcases List.append_eq_append_iff.1 h with ⟨more, rfl, hmore⟩ | ⟨more, rfl, hmore⟩
  · exact .inl ⟨more, rfl, hmore⟩
  · cases more with
    | nil => exact .inl ⟨[], by rw [List.append_nil, List.append_nil], hmore.symm⟩
    | cons m more =>
      obtain ⟨rfl, -⟩ := List.cons.inj hmore
      exact .inr ⟨more, rfl⟩

/-- Up to one of the elements that nodes list nothing parts what they gather. -/
theorem Adds.leads_left {left right : List Node} (h : Adds e name P effect)
    (hlists : Lists name P (left ++ n :: right) items) (hn : IsNamed name n) (g : Gathered)
    (outer : List OpenElement) :
    ∃ (a : α) (g' : Gathered) (s : Children) (p : Passage), P n a ∧ Undivided s p ∧
      Leads (g.inside e .absent outer) .empty left (g'.inside e s outer) p := by
  obtain ⟨before, group, after, heq, hbefore, hafter, hgroup⟩ := hlists
  rcases exists_of_append_eq heq.symm with ⟨more, rfl, hmore⟩ | ⟨more, rfl⟩
  · rcases exists_of_append_eq hmore with ⟨last, rfl, rfl⟩ | ⟨last, rfl⟩
    · exact absurd hn (hafter n (List.mem_append_right _ List.mem_cons_self))
    · obtain ⟨items₁, a, items₂, hleft, ha, rfl⟩ := hgroup.split hn
      obtain ⟨p₁, hfirst⟩ := leads_before (isForeign h.childName hbefore) g outer
      obtain ⟨s, p, hsecond, hs⟩ := h.leads_adjoin hleft (p := p₁) (.inl rfl) g outer
      exact ⟨a, _, s, p, ha, hs, hfirst.append hsecond⟩
  · exact absurd hn (hbefore n (List.mem_append_right _ List.mem_cons_self))

/-- Whether a change to what elements of one name are listed in makes a reading fail. -/
def Breaks (e : Element) (E : List Node → List Node → Prop) (name : String) (P : Node → α → Prop)
    (err : GpxError) : Prop :=
  ∀ {nodes edited : List Node} {items : List α}, Lists name P nodes items → E nodes edited →
    ∀ (g : Gathered) (outer : List OpenElement),
      (g.inside e .absent outer).run (eventsFrom .empty edited) = .error err

/-- No element may follow another one of its name after something that parts them. -/
theorem Adds.breaks_addsBetween (h : Adds e name P effect) :
    Breaks e (AddsBetween name) name P (.apart name) := by
  rintro nodes edited items hlists ⟨left, n, right, rfl, rfl, hn, hleft, hright⟩ g outer
  obtain ⟨left, first, between, rfl, hfirst, hbetween⟩ := exists_last_named hleft
  obtain ⟨after, second, right, rfl, hsecond, hafter⟩ := exists_first_named hright
  rw [List.append_assoc, List.cons_append] at hlists
  obtain ⟨a, g', s, p, ha, hs, hleads⟩ := h.leads_left hlists hfirst g outer
  have hadjacent := hleads.append (h.leads ha hs.settle_ne_past g' outer)
  obtain ⟨s₁, p₁, hleads₁, hs₁⟩ :=
    leads_foreign (isForeign h.childName hbetween) (effect g' a) .adjacent outer .empty
  obtain ⟨s₂, hleads₂, hs₂⟩ := leads_parts h.childName hn (effect g' a) s₁ outer p₁
  obtain ⟨s₃, p₃, hleads₃, hs₃⟩ :=
    leads_foreign (isForeign h.childName hafter) (effect g' a) s₂ outer (n.passage p₁)
  have hpast : settle s₃ p₃ = .past := by
    have hparted : settle s₂ (n.passage p₁) = .past := by
      rw [hs₂]
      rcases hs₁ with hs₁ | hs₁ <;> rw [hs₁] <;> rfl
    rw [hparted] at hs₃
    rcases hs₃ with hs₃ | hs₃ <;> exact hs₃
  have hall := (hadjacent.append hleads₁).append (hleads₂.append hleads₃) (second :: right)
  simp only [List.append_assoc, List.cons_append, List.nil_append] at hall ⊢
  rw [hall]
  exact fails_of_past h.childName hsecond hpast _ outer right

/-- One element that fails makes all that nodes list fail. -/
theorem Adds.breaks_element (h : Adds e name P effect) {E : List Node → List Node → Prop}
    (hE : ∀ {nodes edited : List Node}, E nodes edited → ∃ left n n' right, IsNamed name n ∧
      nodes = left ++ n :: right ∧ edited = left ++ n' :: right ∧
      ∀ (a : α) (g : Gathered) (s : Children) (p : Passage) (outer : List OpenElement), P n a →
        settle s p ≠ .past → (g.inside e s outer).run (n'.events p) = .error err) :
    Breaks e E name P err := by
  intro nodes edited items hlists hedit g outer
  obtain ⟨left, n, n', right, hn, rfl, rfl, hfails⟩ := hE hedit
  obtain ⟨a, g', s, p, ha, hs, hleads⟩ := h.leads_left hlists hn g outer
  rw [hleads, eventsFrom]
  exact run_append_error (hfails a g' s p outer ha hs.settle_ne_past)

/-- What makes the content of an element fail makes the element fail. -/
theorem Adds.breaks_inside {effect : Gathered → List α → Gathered}
    (h : Adds e name (Holds name child P) effect)
    (hchild : ∀ attributes, e.child attributes = .ok c) {E : List Node → List Node → Prop}
    (hE : Breaks c E child P err) : Breaks e (Inside name E) name (Holds name child P) err := by
  apply h.breaks_element
  rintro nodes edited ⟨left, tag, content, content', closing, right, htag, hedit, rfl, rfl⟩
  refine ⟨left, .element tag content closing, .element tag content' closing, right, htag, rfl, rfl,
    ?_⟩
  rintro items g s p outer ⟨tag', content, closing', heq, -, hlists⟩ hs
  cases heq
  rw [run_child h.childName htag (hchild _) hs]
  exact run_append_error (hE hlists hedit g _)

theorem read_without (tag : WrittenTag) (name : String) :
    (without tag name).read = tag.read.filter (·.name != .plain name) := by
  unfold without WrittenTag.read
  rw [List.filter_map]
  rfl

theorem filter_without (tag : WrittenTag) (name : String) :
    (without tag name).read.filter (·.name == .plain name) = [] := by
  rw [read_without, List.filter_filter, List.filter_eq_nil_iff]
  intro a _
  simp

theorem HasCoordinate.without {tag : WrittenTag} {other : String} {x : Double}
    (h : HasCoordinate other x tag.read) (hother : other ≠ name) :
    HasCoordinate other x (without tag name).read := by
  obtain ⟨value, hvalue, hread⟩ := h
  refine ⟨value, ?_, hread⟩
  rw [read_without, List.filter_filter, ← hvalue]
  apply List.filter_congr
  intro a _
  cases ha : a.name == Name.plain other with
  | false => rfl
  | true =>
    rw [eq_of_beq ha]
    simp [Name.plain, hother]

/-- A point that lacks a coordinate fails when it ends. -/
theorem breaks_drops (hname : name ∈ ["lat", "lon"]) :
    Breaks .segment (Drops name) "trkpt" IsPoint (.lacks name) := by
  apply adds_point.breaks_element
  rintro nodes edited ⟨left, tag, content, closing, right, htag, rfl, rfl⟩
  refine ⟨left, .element tag content closing, .element (without tag name) content closing, right,
    htag, rfl, rfl, ?_⟩
  rintro ⟨latitude, longitude⟩ g s p outer ⟨tag', content', closing', heq, -, hlat, hlon⟩ hs
  cases heq
  have hnone (hplain : name ≠ "xmlns") : coordinate? name (without tag name).data = .ok none :=
    coordinate?_eq_none hplain (filter_without tag name)
  have hrun (latitude longitude : Option Double)
      (h : Element.segment.child (without tag name).data = .ok (.point latitude longitude))
      (hfinish : ∀ (s : Children) (outer : List OpenElement),
        (g.inside (.point latitude longitude) s outer).step .finish = .error (.lacks name)) :
      (g.inside .segment s outer).run
        ((Node.element (without tag name) content closing).events p) = .error (.lacks name) := by
    obtain ⟨s', hcontent⟩ := run_point latitude longitude content g
      (⟨.segment, .adjacent⟩ :: outer)
    have htag' : (without tag name).name = .plain "trkpt" := htag
    rw [run_child rfl htag' h hs, run_append hcontent]
    exact run_cons_error (hfinish s' _)
  simp only [List.mem_cons, List.not_mem_nil, or_false] at hname
  rcases hname with rfl | rfl
  · have hlon' := coordinate?_eq_some (by decide)
      (hlon.without (show "lon" ≠ "lat" by decide))
    exact hrun none (some longitude) (child_segment (hnone (by decide)) hlon') fun s outer => rfl
  · have hlat' := coordinate?_eq_some (by decide)
      (hlat.without (show "lat" ≠ "lon" by decide))
    exact hrun (some latitude) none (child_segment hlat' (hnone (by decide))) fun s outer => rfl

/-! ## 6. Octets -/

/-- Whether octets carry an outermost element: they write it, or they are otherwise read as what is
in it. -/
def Carries (root : Node) (octets : List UInt8) : Prop :=
  Xml.WritesDocument root octets ∨ Xml.Reading.ofOctets octets = ⟨root.events .empty, true⟩

theorem Carries.ofFile_eq {tag : WrittenTag} {content : List Node} {closing : Option (List Char)}
    {octets : List UInt8} (h : Carries (.element tag content closing) octets) :
    ofFile (some octets) = ofReading ⟨(Node.element tag content closing).events .empty, true⟩ := by
  show ofReading (Xml.Reading.ofOctets octets) = _
  rcases h with h | h
  · rw [h.reading_eq]
  · rw [h]

/-- What is in the outermost element is read as what is in a document. -/
theorem run_root (tag : WrittenTag) (content : List Node) (closing : Option (List Char)) :
    Progress.empty.run ((Node.element tag content closing).events .empty) =
      (Gathered.inside ⟨[], []⟩ .document .absent []).run
        (eventsFrom .empty content ++ [.finish]) :=
  run_cons rfl

/-- A change that makes what is in a document fail makes the document fail. -/
theorem ofFile_eq_error {E : List Node → List Node → Prop}
    (hE : Breaks .document E "trk" IsTrack err) {root edited : Node}
    {tracks : List (List (List (GeoPoint Double)))} (h : IsGpx root tracks)
    (hedit : Edits E root edited) {octets : List UInt8} (hoctets : Carries edited octets) :
    ofFile (some octets) = .error err := by
  obtain ⟨tag, content, content', closing, hcontent, rfl, rfl⟩ := hedit
  obtain ⟨tag, content, closing, heq, hlists⟩ := h
  cases heq
  have hrun : Progress.empty.run ((Node.element tag content' closing).events .empty) =
      .error err := by
    rw [run_root]
    exact run_append_error (hE hlists hcontent ⟨[], []⟩ [])
  rw [hoctets.ofFile_eq]
  unfold ofReading
  simp only [hrun]

/-- The segments of the tracks of a document are its tours, in their order and with their points,
whatever else it holds. A document where something parts two tracks, two segments or two points, or
where a point lacks a coordinate, gives none of them. -/
theorem reads_back_segments {root : Node} {tracks : List (List (List (GeoPoint Double)))}
    (h : IsGpx root tracks) :
    (∀ octets, Carries root octets → ofFile (some octets) = .ok tracks.flatten) ∧
    (∀ name edited octets, Edits (PartsNeighbours name) root edited → Carries edited octets →
      ofFile (some octets) = .error (.apart name)) ∧
    (∀ name ∈ ["lat", "lon"], ∀ edited octets, Edits (TakesCoordinate name) root edited →
      Carries edited octets → ofFile (some octets) = .error (.lacks name)) := by
  refine ⟨fun octets hoctets => ?_, fun name edited octets hedit hoctets => ?_,
    fun name hname edited octets hedit hoctets => ?_⟩
  · obtain ⟨tag, content, closing, rfl, hlists⟩ := h
    obtain ⟨s', hrun⟩ := adds_track.run_content hlists ⟨[], []⟩ []
    rw [foldl_addTrack, List.append_nil] at hrun
    rw [hoctets.ofFile_eq]
    unfold ofReading
    simp only [run_root, run_append hrun]
    show Except.ok tracks.flatten.reverse.reverse = _
    rw [List.reverse_reverse]
  · refine ofFile_eq_error ?_ h hedit hoctets
    rintro nodes edited items hlists hparts
    cases hparts with
    | tracks hedit => exact adds_track.breaks_addsBetween hlists hedit
    | segments hedit =>
      exact adds_track.breaks_inside (fun _ => rfl) adds_segment.breaks_addsBetween hlists hedit
    | points hedit =>
      exact adds_track.breaks_inside (fun _ => rfl)
        (adds_segment.breaks_inside (fun _ => rfl) adds_point.breaks_addsBetween) hlists hedit
  · exact ofFile_eq_error (adds_track.breaks_inside (fun _ => rfl)
      (adds_segment.breaks_inside (fun _ => rfl) (breaks_drops hname))) h hedit hoctets

/-! ### Two points in one segment -/

/-- A tag with attributes in double quotes. -/
def sampleTag (name : String) (attributes : List (String × String)) : WrittenTag :=
  ⟨.plain name, attributes.map fun a =>
    ⟨[' '], .plain a.1, [], [], .double, a.2.toList.map .char⟩, []⟩

def firstPoint : Node := .element (sampleTag "trkpt" [("lat", "46"), ("lon", "7")]) [] none

/-- A document with one segment, and with something before the second of its points. -/
def sample (between : List Node) (second : WrittenTag) : Node :=
  .element (sampleTag "gpx" []) [.element (sampleTag "trk" []) [.element (sampleTag "trkseg" [])
    (firstPoint :: (between ++ [.element second [] none])) (some [])] (some [])] (some [])

def secondTag : WrittenTag := sampleTag "trkpt" [("lat", "47"), ("lon", "8")]

theorem isGpx_sample : IsGpx (sample [.comment ['a']] secondTag)
    [[[⟨.ofInt 46, .ofInt 7⟩, ⟨.ofInt 47, .ofInt 8⟩]]] := by
  have hfirst : IsPoint firstPoint ⟨.ofInt 46, .ofInt 7⟩ :=
    ⟨_, _, _, rfl, rfl, ⟨['4', '6'], by decide, by decide +kernel⟩,
      ⟨['7'], by decide, by decide +kernel⟩⟩
  have hsecond : IsPoint (.element secondTag [] none) ⟨.ofInt 47, .ofInt 8⟩ :=
    ⟨_, _, _, rfl, rfl, ⟨['4', '7'], by decide, by decide +kernel⟩,
      ⟨['8'], by decide, by decide +kernel⟩⟩
  have hlists {α : Type} {name : String} {P : Node → α → Prop} {nodes : List Node}
      {items : List α} (h : Adjoin P nodes items) : Lists name P nodes items :=
    ⟨[], nodes, [], (List.append_nil nodes).symm, nofun, nofun, h⟩
  have hcomment : IsSilent (.comment ['a']) := trivial
  have hsegment : IsSegment (.element (sampleTag "trkseg" []) _ (some [])) _ :=
    ⟨_, _, _, rfl, rfl, hlists (.item hfirst (.silent hcomment (.item hsecond .nil)))⟩
  have htrack : IsTrack (.element (sampleTag "trk" []) _ (some [])) _ :=
    ⟨_, _, _, rfl, rfl, hlists (.item hsegment .nil)⟩
  exact ⟨_, _, _, rfl, hlists (.item htrack .nil)⟩

theorem isWritten_plain {name : String} {c : Char} {rest : List Char}
    (htext : name.toList = c :: rest) (hstart : Xml.isNameStart c = true)
    (hrest : rest.all Xml.isNamePart = true)
    (hoctets : (Xml.utf8Octets (c :: rest)).length ≤ Xml.PartialName.maxOctets)
    (hread : Name.ofChars? (Name.plain name).text = some (.plain name)) :
    (Name.plain name).IsWritten := by
  refine ⟨?_, hread⟩
  show Xml.IsName name.toList
  rw [htext]
  exact Xml.isName_cons hstart hrest hoctets

def sampleNames : List String := ["gpx", "trk", "trkseg", "trkpt", "lat", "lon", "ele"]

theorem isWritten_sampleName {name : String} (h : name ∈ sampleNames) :
    (Name.plain name).IsWritten := by
  simp only [sampleNames, List.mem_cons, List.not_mem_nil, or_false] at h
  rcases h with rfl | rfl | rfl | rfl | rfl | rfl | rfl
  all_goals exact isWritten_plain rfl (by decide) (by decide) (by decide) (by decide)

theorem isWritten_sampleTag {name : String} (hname : name ∈ sampleNames)
    {attributes : List (String × String)}
    (h : attributes.all (fun a => sampleNames.contains a.1 &&
      a.2.toList.all Xml.fieldChars.contains) = true) :
    (sampleTag name attributes).IsWritten .v10 where
  name := isWritten_sampleName hname
  blanks := nofun
  attributes := by
    have hblank : Blanks [' '] := by
      intro c hc
      obtain rfl := List.mem_singleton.1 hc
      rfl
    have hnone : Blanks [] := by
      intro c hc
      cases hc
    intro a ha
    obtain ⟨⟨key, value⟩, hmem, rfl⟩ := List.mem_map.1 ha
    have hattribute := List.all_eq_true.1 h _ hmem
    rw [Bool.and_eq_true, List.all_eq_true, List.contains_iff_mem] at hattribute
    obtain ⟨hkey, hvalue⟩ := hattribute
    refine ⟨⟨List.cons_ne_nil _ _, hblank, hnone, hnone⟩, isWritten_sampleName hkey, ?_⟩
    intro piece hpiece
    obtain ⟨c, hc, rfl⟩ := List.mem_map.1 hpiece
    obtain ⟨hmarks, -, hplain⟩ := Xml.mem_fieldChars (v := .v10)
      (List.contains_iff_mem.1 (hvalue c hc))
    simp only [Xml.marks, List.mem_cons, List.not_mem_nil, or_false, not_or] at hmarks
    obtain ⟨hopen, -, -, -, -, -, hdouble, hampersand, -⟩ := hmarks
    refine .char hplain hopen hampersand ?_
    unfold Xml.Token.ofChar
    split <;> first | contradiction | (intro h; cases h)

theorem isContent_sampleTag {name : String} (hname : name ∈ sampleNames) {content : List Node}
    (h : Xml.IsContent .v10 .outermost content) :
    Xml.IsContent .v10 .outermost [.element (sampleTag name []) content (some [])] := by
  have henter : Xml.Scope.outermost.enter? (sampleTag name []).name (sampleTag name []).read =
      some .outermost := rfl
  exact .element (isWritten_sampleTag hname rfl) henter h nofun .nil

theorem isContent_sample {between : List Node} {second : WrittenTag}
    (h : Xml.IsContent .v10 .outermost (between ++ [.element second [] none])) :
    Xml.IsContent .v10 .outermost [sample between second] := by
  have hfirst : (sampleTag "trkpt" [("lat", "46"), ("lon", "7")]).IsWritten .v10 :=
    isWritten_sampleTag (by decide) (by decide)
  have henter : Xml.Scope.outermost.enter? (.plain "trkpt")
      (sampleTag "trkpt" [("lat", "46"), ("lon", "7")]).read = some .outermost := by decide
  exact isContent_sampleTag (by decide) (isContent_sampleTag (by decide)
    (isContent_sampleTag (by decide) (.empty hfirst henter h)))

theorem carries_sample {between : List Node} {second : WrittenTag}
    (h : Xml.IsContent .v10 .outermost (between ++ [.element second [] none])) :
    Carries (sample between second) (Xml.utf8Octets (sample between second).text) := by
  refine .inl ⟨[], [], .v10, [], [], List.mem_cons_self, .absent, .nil, isContent_sample h, ?_⟩
  rw [List.append_nil]
  rfl

/-- A change to what is in the segment of a document. -/
theorem edits_sample {E : List Node → List Node → Prop} {between between' : List Node}
    {second second' : WrittenTag}
    (h : E (firstPoint :: (between ++ [.element second [] none]))
      (firstPoint :: (between' ++ [.element second' [] none]))) :
    Edits (Inside "trk" (Inside "trkseg" E)) (sample between second) (sample between' second') := by
  have hsegment : Inside "trkseg" E
      [.element (sampleTag "trkseg" []) (firstPoint :: (between ++ [.element second [] none]))
        (some [])]
      [.element (sampleTag "trkseg" []) (firstPoint :: (between' ++ [.element second' [] none]))
        (some [])] :=
    ⟨[], sampleTag "trkseg" [], _, _, some [], [], rfl, h, rfl, rfl⟩
  exact ⟨sampleTag "gpx" [], _, _, some [],
    ⟨[], sampleTag "trk" [], _, _, some [], [], rfl, hsegment, rfl, rfl⟩, rfl, rfl⟩

/-- One segment of two points; then with an element between them, and with the latitude of one of
them missing. -/
theorem reads_back_segments_of_two_points :
    IsGpx (sample [.comment ['a']] secondTag)
      [[[⟨.ofInt 46, .ofInt 7⟩, ⟨.ofInt 47, .ofInt 8⟩]]] ∧
    ofFile (some (Xml.utf8Octets ("<gpx><trk><trkseg><trkpt lat=\"46\" lon=\"7\"/><!--a-->" ++
      "<trkpt lat=\"47\" lon=\"8\"/></trkseg></trk></gpx>").toList)) =
      .ok [[⟨.ofInt 46, .ofInt 7⟩, ⟨.ofInt 47, .ofInt 8⟩]] ∧
    ofFile (some (Xml.utf8Octets ("<gpx><trk><trkseg><trkpt lat=\"46\" lon=\"7\"/><!--a--><ele/>" ++
      "<trkpt lat=\"47\" lon=\"8\"/></trkseg></trk></gpx>").toList)) = .error (.apart "trkpt") ∧
    ofFile (some (Xml.utf8Octets ("<gpx><trk><trkseg><trkpt lat=\"46\" lon=\"7\"/><!--a-->" ++
      "<trkpt lon=\"8\"/></trkseg></trk></gpx>").toList)) = .error (.lacks "lat") := by
  have hempty {tag : WrittenTag} (htag : tag.IsWritten .v10)
      (henter : Xml.Scope.outermost.enter? tag.name tag.read = some .outermost)
      {rest : List Node} (hrest : Xml.IsContent .v10 .outermost rest) :
      Xml.IsContent .v10 .outermost (.element tag [] none :: rest) := .empty htag henter hrest
  have hcomment {rest : List Node} (hrest : Xml.IsContent .v10 .outermost rest) :
      Xml.IsContent .v10 .outermost (.comment ['a'] :: rest) :=
    .comment ⟨fun c hc => List.mem_singleton.1 hc ▸ rfl, by decide⟩ hrest
  have hsecond : Xml.IsContent .v10 .outermost [.element secondTag [] none] :=
    hempty (isWritten_sampleTag (by decide) (by decide)) (by decide) .nil
  have helement : Xml.IsContent .v10 .outermost
      [.element (sampleTag "ele" []) [] none, .element secondTag [] none] :=
    hempty (isWritten_sampleTag (by decide) (by decide)) (by decide) hsecond
  have hwithout : Xml.IsContent .v10 .outermost [.element (without secondTag "lat") [] none] :=
    hempty (show (sampleTag "trkpt" [("lon", "8")]).IsWritten .v10 from
      isWritten_sampleTag (by decide) (by decide)) (by decide) .nil
  obtain ⟨hread, hapart, hlacks⟩ := reads_back_segments isGpx_sample
  have hcarries {between : List Node} {second : WrittenTag} {text : List Char}
      (h : Xml.IsContent .v10 .outermost (between ++ [.element second [] none]))
      (htext : (sample between second).text = text) :
      Carries (sample between second) (Xml.utf8Octets text) := htext ▸ carries_sample h
  have hadds : AddsBetween "trkpt" [firstPoint, .comment ['a'], .element secondTag [] none]
      [firstPoint, .comment ['a'], .element (sampleTag "ele" []) [] none,
        .element secondTag [] none] :=
    ⟨[firstPoint, .comment ['a']], _, [.element secondTag [] none], rfl, rfl,
      show Name.plain "ele" ≠ Name.plain "trkpt" by decide, ⟨firstPoint, by simp, rfl⟩,
      ⟨_, List.mem_singleton_self _, rfl⟩⟩
  have hdrops : Drops "lat" [firstPoint, .comment ['a'], .element secondTag [] none]
      [firstPoint, .comment ['a'], .element (without secondTag "lat") [] none] :=
    ⟨[firstPoint, .comment ['a']], secondTag, [], none, [], rfl, rfl, rfl⟩
  refine ⟨isGpx_sample, ?_, ?_, ?_⟩
  · exact hread _ (hcarries (hcomment hsecond) (by decide +kernel))
  · have hedits : Edits (Inside "trk" (Inside "trkseg" (AddsBetween "trkpt")))
        (sample [.comment ['a']] secondTag)
        (sample [.comment ['a'], .element (sampleTag "ele" []) [] none] secondTag) :=
      edits_sample hadds
    obtain ⟨tag, content, content', closing, hedit, hroot, hedited⟩ := hedits
    exact hapart "trkpt" _ _ ⟨tag, content, content', closing, .points hedit, hroot, hedited⟩
      (hcarries (hcomment helement) (by decide +kernel))
  · have hedits : Edits (TakesCoordinate "lat") (sample [.comment ['a']] secondTag)
        (sample [.comment ['a']] (without secondTag "lat")) := edits_sample hdrops
    exact hlacks "lat" (by decide) _ _ hedits (hcarries (hcomment hwithout) (by decide +kernel))

end TourMap.Gpx
