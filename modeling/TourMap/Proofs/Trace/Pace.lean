import TourMap.Proofs.Geometry.Crossing
import TourMap.Proofs.Trace.Buffers
import TourMap.Proofs.Trace.Sketch

/-!
# Pace: the line at hand and the clipper

Each stroke of a track ends with the pen down at a vertex or lifted (`Stroke.stop?`). Where the clip
region sees all ways into it, the pen is down exactly at the points inside. So after each step of a
trace there is a line at hand if and only if the clipper is inside, and the line has come to the
pixel of the last point (`Trace.InPace`).
-/

namespace TourMap

/-! ## 1. Where a stroke stops -/

/-- The vertex at which the pen stays down after a stroke. -/
def Stroke.stop? {V : Type} : Stroke V → Option V
  | .lift v => v
  | .goOn v => some v
  | .enter _ b => some b
  | .leave _ _ _ => none

namespace Sketch

variable {V : Type} {s : Sketch V} {v : Option V}

/-- Whether the line at hand has come to `v`, be it a vertex or dropped; without a line nothing was
dropped. -/
structure StandsAt (s : Sketch V) (v : Option V) : Prop where
  last : s.tail.or s.run.getLast? = v
  tail : s.run = [] → s.tail = none

theorem StandsAt.run_eq_nil_iff (h : s.StandsAt v) : s.run = [] ↔ v = none := by
  rw [← h.last, Option.or_eq_none_iff, List.getLast?_eq_none_iff]
  exact ⟨fun hrun => ⟨h.tail hrun, hrun⟩, And.right⟩

/-- A stroke leaves the pen where it stops, whatever was drawn before. -/
theorem standsAt_draw (s : Sketch V) (far : V → V → Bool) (stroke : Stroke V) :
    (s.draw far stroke).StandsAt stroke.stop? := by
  cases stroke with
  | lift v => cases v <;> exact ⟨rfl, fun _ => rfl⟩
  | goOn v =>
    rw [draw]
    split
    · exact ⟨List.getLast?_concat, fun _ => rfl⟩
    · rename_i hnear
      -- A vertex is near the last one only if there is a last one.
      refine ⟨rfl, fun hrun => (hnear ?_).elim⟩
      rw [show s.run = [] from hrun]
      rfl
  | enter a b => exact ⟨rfl, fun _ => rfl⟩
  | leave a b touches =>
    rw [draw]
    split
    · split <;> exact ⟨rfl, fun _ => rfl⟩
    · exact ⟨rfl, fun _ => rfl⟩

end Sketch

namespace Region

variable {N V : Type} [Arithmetic N] (r : Region N)

/-- Whether a way into the rectangle is seen: some part of it is kept. -/
def SeesWay (p q : Point N) : Prop :=
  r.contains q = true → ∃ part, r.clip 4 ⟨p, q⟩ (r.outcode p) (r.outcode q) = some part

variable {r} {p q : Point N}

/-- A stroke to a point inside stops there, any other one with the pen lifted. -/
theorem stop?_strokeTo (mark : Point N → V) (breaks : Bool) (h : r.SeesWay p q) :
    (r.strokeTo mark breaks p q).stop? = if r.contains q then some (mark q) else none := by
  unfold strokeTo
  cases breaks with
  | true => rfl
  | false =>
    rw [if_neg Bool.false_ne_true]
    cases hq : r.contains q with
    | false =>
      rw [Bool.and_false, if_neg Bool.false_ne_true, if_neg Bool.false_ne_true]
      cases r.clip 4 ⟨p, q⟩ (r.outcode p) (r.outcode q) <;> rfl
    | true =>
      -- The way is seen, so it is not taken for one outside, and what is kept of it ends at `q`.
      obtain ⟨part, hclip⟩ := h hq
      have hcode : r.outcode q = .inside := beq_iff_eq.1 hq
      rw [hclip, if_pos rfl]
      split
      · rfl
      · rw [hcode] at hclip
        exact congrArg (some ∘ mark) (clip_second_eq hclip)

end Region

/-! ## 2. Steps and runs -/

namespace Trace

variable {W N : Type} [Arithmetic W] [Arithmetic N] [Resolution W N] {settings : BuildSettings N}
  {position : MapPosition W} {starts : List Nat} {i : Nat} {last p : Point W} {c color : Color}
  {t : Trace W N}

/-- Whether a trace that has come to the point `p` with the index `i` has its line at hand there. -/
structure InPace (settings : BuildSettings N) (position : MapPosition W) (starts : List Nat)
    (i : Nat) (p : Point W) (color : Color) (t : Trace W N) : Prop where
  sketch : ∃ s : Sketch (Vertex N),
    Sketches id (.centered settings.clipExtent) t (position.pixel p).point s ∧
      s.StandsAt (if (Region.centered settings.clipExtent).contains (position.pixel p).point then
        some ⟨(position.pixel p).point, color⟩ else none)
  course : t.course = ((position.pixel p : Pixel N).flip, p.x, nextStarts starts (i + 1))

theorem inPace_start (p : Point W) (color : Color) :
    InPace settings position starts 0 p color
      (start settings (nextStarts starts 1) p (position.pixel p) color) :=
  ⟨⟨_, Sketches.start settings (fun _ _ => rfl) _ p (position.pixel p) color
    (farBy id settings.minDistance), Sketch.standsAt_draw _ _ _⟩, rfl⟩

theorem InPace.step (h : InPace settings position starts i last c t)
    (hstarts : starts.Pairwise (· < ·))
    (hway : (Region.centered settings.clipExtent).SeesWay (position.pixel last).point
      (position.pixel p).point) :
    InPace settings position starts (i + 1) p color
      (t.step settings (i + 1) p (position.pixel p) color) := by
  obtain ⟨s, hsketch, -⟩ := h.sketch
  have hstop := Region.stop?_strokeTo (fun q => (⟨q, color⟩ : Vertex N))
    (position.breaks N starts (i + 1) last p) hway
  refine ⟨⟨_, hsketch.step (fun _ _ => rfl) hstarts h.course p color, ?_⟩,
    step_course_next settings hstarts h.course p color⟩
  rw [← hstop]
  exact Sketch.standsAt_draw _ _ _

/-- A trace of one point more has taken one more step. -/
theorem ofPoints_take_succ {boundaries : List Nat} {points : List (Point W × Color)}
    (h : ofPoints settings position boundaries (points.take (i + 1)) = some t)
    (hp : points[i + 1]? = some (p, color)) :
    ofPoints settings position boundaries (points.take (i + 2)) =
      some (t.step settings (i + 1) p (position.pixel p) color) := by
  obtain ⟨hlt, -⟩ := List.getElem?_eq_some_iff.1 hp
  have hlength : (points.take (i + 1)).length = i + 1 := List.length_take_of_le hlt.le
  have htake : points.take (i + 2) = points.take (i + 1) ++ [(p, color)] := by
    rw [List.take_add_one, hp, Option.toList_some]
  rw [htake]
  cases hbefore : points.take (i + 1) with
  | nil =>
    rw [hbefore] at h
    cases h
  | cons first rest =>
    rw [hbefore] at h hlength
    obtain rfl := Option.some.inj h
    rw [List.cons_append, ofPoints, follow_append, ← hlength, List.length_cons, Nat.add_comm 1]
    rfl

/-- A trace is in pace at each point, if all ways between pixels of the track are seen. -/
theorem inPace_ofPoints (hstarts : starts.Pairwise (· < ·)) {points : List (Point W × Color)}
    (hways : ∀ a ∈ points, ∀ b ∈ points, (Region.centered settings.clipExtent).SeesWay
      (position.pixel a.1).point (position.pixel b.1).point)
    (hp : points[i]? = some (p, color)) :
    ∃ t, ofPoints settings position (nextStarts starts 1) (points.take (i + 1)) = some t ∧
      InPace settings position starts i p color t := by
  -- Induction on the index: the sketch at a point is drawn on by the stroke to the next one.
  induction i generalizing p color with
  | zero =>
    cases points with
    | nil => cases hp
    | cons first rest =>
      obtain rfl := Option.some.inj hp
      exact ⟨_, rfl, inPace_start p color⟩
  | succ i ih =>
    obtain ⟨hlt, -⟩ := List.getElem?_eq_some_iff.1 hp
    have hlast : points[i]? = some points[i] := List.getElem?_eq_getElem (by omega)
    obtain ⟨t, ht, hpace⟩ := ih hlast
    exact ⟨_, ofPoints_take_succ ht hp,
      hpace.step hstarts (hways _ (List.mem_of_getElem? hlast) _ (List.mem_of_getElem? hp))⟩

end Trace

/-! ## 3. The variables of a pass -/

/-- Whether a point lies beyond no border of a rectangle. -/
def Region.Admits {α : Type} [Arithmetic α] (r : Region α) (p : Point α) : Prop :=
  ¬ p.x < r.min.x ∧ ¬ r.max.x < p.x ∧ ¬ p.y < r.min.y ∧ ¬ r.max.y < p.y

theorem Region.contains_iff {α : Type} [Arithmetic α] {r : Region α} {p : Point α} :
    r.contains p = true ↔ r.Admits p := by
  rw [contains, beq_iff_eq, outcode, Outcode.inside, Outcode.mk.injEq, Side.of_eq_within_iff,
    Side.of_eq_within_iff, and_assoc, Admits]

/-- The next start is the least one from an index on. -/
theorem head?_nextStarts {starts : List Nat} (h : starts.Pairwise (· < ·)) (i k : Nat) :
    (nextStarts starts i).head? = some k ↔ IsLeast {s | s ∈ starts ∧ i ≤ s} k := by
  induction starts with
  | nil => simp [nextStarts, IsLeast]
  | cons s rest ih =>
    obtain ⟨hfirst, hrest⟩ := List.pairwise_cons.1 h
    by_cases hs : s < i
    · have hskip : nextStarts (s :: rest) i = nextStarts rest i :=
        List.dropWhile_cons_of_pos (decide_eq_true hs)
      have hset : {b | b ∈ s :: rest ∧ i ≤ b} = {b | b ∈ rest ∧ i ≤ b} := by
        refine Set.ext fun b => and_congr_left fun hle => ?_
        exact List.mem_cons.trans (or_iff_right fun heq => by omega)
      rw [hskip, hset]
      exact ih hrest
    · have hleast : IsLeast {b | b ∈ s :: rest ∧ i ≤ b} s := by
        refine ⟨⟨List.mem_cons_self, not_lt.1 hs⟩, fun b hb => ?_⟩
        rcases List.mem_cons.1 hb.1 with rfl | hmem
        · exact le_refl b
        · exact (hfirst b hmem).le
      rw [nextStarts, List.dropWhile_cons_of_neg (by simpa using hs), List.head?_cons,
        Option.some.injEq]
      exact ⟨fun hk => hk ▸ hleast, hleast.unique⟩

/-- Whether the line, the clipper and the course of a pass fit together, where it has followed a
track up to the point with the index `i`. -/
structure Pass.KeepsPace {W N : Type} [Arithmetic N] (s : Pass W N) (r : Region N)
    (starts : List Nat) (i : Nat) (x : W) (pixel : Pixel N) (color : Color) : Prop where
  line_iff : s.run.isEmpty = false ↔ s.clipper.isInside = true
  inside_iff : s.clipper.isInside = true ↔ r.Admits pixel.point
  size_eq : s.run.points.size = s.run.colors.size
  tail : s.run.tail.isSome = true → s.run.isEmpty = false
  last : s.run.isEmpty = false → s.run.last? = some ⟨pixel.point, color⟩
  flip : s.flip = pixel.flip
  lastX : s.lastX = x
  nextStart : ∀ k, s.nextStart = some k ↔ IsLeast {start | start ∈ starts ∧ i < start} k

namespace Trace

variable {W N : Type} {t : Trace W N} {s : Sketch (Vertex N)}

theorem Shows.buffers_tail (h : Shows id t s) : t.buffers.run.tail = s.tail :=
  h.tail.trans (congrFun Option.map_id _)

theorem Shows.buffers_isEmpty (h : Shows id t s) : t.buffers.run.isEmpty = s.run.isEmpty :=
  t.run.isEmpty_buffers.trans h.isEmpty

theorem Shows.buffers_last? (h : Shows id t s) :
    t.buffers.run.last? = s.tail.or s.run.getLast? := by
  have hback : t.buffers.run.back? = s.run.getLast? := by
    rw [buffers_run, Run.back?_buffers, ← Array.getLast?_toList, h.run, List.map_id]
  rw [RunBuffers.last?, h.buffers_tail, hback]

theorem buffers_size_eq (t : Trace W N) :
    t.buffers.run.points.size = t.buffers.run.colors.size := by
  rw [buffers_run, Run.buffers, Array.size_map, Array.size_map]

variable [Arithmetic W] [Arithmetic N] [Resolution W N] {settings : BuildSettings N}
  {position : MapPosition W} {starts : List Nat} {i : Nat} {p : Point W} {color : Color}

theorem InPace.keepsPace (h : InPace settings position starts i p color t)
    (hstarts : starts.Pairwise (· < ·)) :
    t.buffers.KeepsPace (.centered settings.clipExtent) starts i p.x (position.pixel p) color := by
  obtain ⟨s, hsketch, hstands⟩ := h.sketch
  have hinside := hsketch.clipper.isInside_eq
  have hempty := hsketch.shows.buffers_isEmpty
  -- The pen is down at the points inside and nowhere else.
  have hline : t.buffers.run.isEmpty = false ↔ t.clipper.isInside = true := by
    rw [hempty, hinside, List.isEmpty_eq_false_iff, ne_eq, hstands.run_eq_nil_iff]
    cases (Region.centered settings.clipExtent).contains (position.pixel p).point with
    | true => exact iff_of_true (Option.some_ne_none _) rfl
    | false => exact iff_of_false (not_not_intro rfl) Bool.false_ne_true
  obtain ⟨hflip, hlastX, hboundaries⟩ :
      t.flip = (position.pixel p : Pixel N).flip ∧ t.lastX = p.x ∧
        t.boundaries = nextStarts starts (i + 1) := by
    simpa [Trace.course] using h.course
  refine ⟨hline, ?inside, t.buffers_size_eq, ?tail, ?last, hflip, hlastX, ?next⟩
  case inside =>
    rw [← Region.contains_iff, ← hinside, Trace.buffers_clipper]
  case tail =>
    intro hsome
    rw [hempty, List.isEmpty_eq_false_iff]
    intro hrun
    rw [hsketch.shows.buffers_tail, hstands.tail hrun] at hsome
    cases hsome
  case last =>
    intro hne
    rw [hsketch.shows.buffers_last?, hstands.last, if_pos (hinside.symm.trans (hline.1 hne))]
  case next =>
    intro k
    rw [Trace.buffers_nextStart, hboundaries]
    exact head?_nextStarts hstarts (i + 1) k

end Trace

end TourMap
