import TourMap.Proofs.Trace.Order

/-!
# Builder: every vertex comes from its own point of the track

The vertices of a geometry can be given indices of points of its track such that the indices never
fall, all lines one after the other, and each vertex comes from the point of its index
(`TrackData.ComesFrom`). No line goes on over an index at which the track breaks.
-/

namespace TourMap

variable {W N : Type} [Mercator W] [Arithmetic N] [Resolution W N]

namespace TrackData

/-! ## 1. The points of a track and their vertices -/

variable (N) in
/-- The pixel of the point with the given index. -/
def pixelAt? (track : TrackData W) (position : MapPosition W) (i : Nat) : Option (Point N) :=
  track.points[i]?.map fun p => (position.pixel p.project).point

variable (track : TrackData W) (position : MapPosition W)

/-- The part in the clip region of the segment to the pixel of a point from that of the point before
it. The first point has none before it. -/
def partAt (extent : N) : (i : Nat) → Option (Segment N)
  | 0 => none
  | i + 1 => do
    let p ← track.points[i]?
    let q ← track.points[i + 1]?
    let region := Region.centered extent
    let start : Pixel N := position.pixel p.project
    let stop : Pixel N := position.pixel q.project
    region.clip 4 ⟨start.point, stop.point⟩ (region.outcode start.point) (region.outcode stop.point)

/-- Whether a vertex has the color of a point and lies at its pixel, or at an end of the part in the
clip region of the segment to it. -/
structure ComesFrom (extent : N) (i : Nat) (v : Vertex N) : Prop where
  color : track.colors[i]? = some v.color
  point : (∃ p, track.points[i]? = some p ∧ v.point = (position.pixel p.project).point) ∨
    ∃ part, track.partAt position extent i = some part ∧
      (v.point = part.first ∨ v.point = part.second)

variable (N) in
/-- Whether a tour starts at a point, or the way to it from the point before it changes to another
copy of the world or goes around the world. -/
def BreaksAt (i : Nat) : Prop :=
  i ∈ track.tourStarts ∨ ∃ j p q, i = j + 1 ∧ track.points[j]? = some p ∧
    track.points[i]? = some q ∧
      ((position.pixel q.project : Pixel N).flip ≠ (position.pixel p.project : Pixel N).flip ∨
        Arithmetic.half < Arithmetic.abs (q.project.x - p.project.x))

/-- Whether two vertices are the ends of the part in the clip region of the segment to a point. -/
def EndsOfPart (extent : N) (i : Nat) (u w : Vertex N) : Prop :=
  ∃ part, track.partAt position extent i = some part ∧ u.point = part.first ∧ w.point = part.second

variable {track}

theorem getElem?_path {i : Nat} {q : Point W} {color : Color}
    (h : track.path[i]? = some (q, color)) :
    ∃ p, track.points[i]? = some p ∧ q = p.project ∧ track.colors[i]? = some color := by
  obtain ⟨hpoint, hcolor⟩ := List.getElem?_zip_eq_some.1 h
  rw [List.getElem?_map, Option.map_eq_some_iff, Array.getElem?_toList] at hpoint
  obtain ⟨p, hp, rfl⟩ := hpoint
  exact ⟨p, hp, rfl, by rwa [Array.getElem?_toList] at hcolor⟩

variable {position}

theorem partAt_succ {extent : N} {i : Nat} {p q : GeoPoint W} (hp : track.points[i]? = some p)
    (hq : track.points[i + 1]? = some q) :
    track.partAt position extent (i + 1) =
      (Region.centered extent).clip 4
        ⟨(position.pixel p.project).point, (position.pixel q.project).point⟩
        ((Region.centered extent).outcode (position.pixel p.project).point)
        ((Region.centered extent).outcode (position.pixel q.project).point) := by
  rw [partAt, hp, hq]
  rfl

omit [Arithmetic N] in
theorem breaksAt_iff {i : Nat} {p q : GeoPoint W} (hp : track.points[i]? = some p)
    (hq : track.points[i + 1]? = some q) :
    track.BreaksAt N position (i + 1) ↔
      position.breaks N track.tourStarts (i + 1) p.project q.project = true := by
  unfold MapPosition.breaks Trace.wraps
  rw [Bool.or_eq_true, Bool.or_eq_true, bne_iff_ne, decide_eq_true_iff, decide_eq_true_iff]
  constructor
  · rintro (hstart | ⟨j, p', q', hj, hp', hq', hbreak⟩)
    · exact Or.inr hstart
    · obtain rfl : i = j := Nat.succ.inj hj
      obtain rfl : p = p' := Option.some.inj (hp.symm.trans hp')
      obtain rfl : q = q' := Option.some.inj (hq.symm.trans hq')
      exact Or.inl hbreak
  · rintro (hbreak | hstart)
    · exact Or.inr ⟨i, p, q, rfl, hp, hq, hbreak⟩
    · exact Or.inl hstart

end TrackData

/-! ## 2. The vertices of a stroke -/

namespace Region

variable {V : Type} {r : Region N} {mark : Point N → V} {breaks : Bool} {p q : Point N}

/-- Only where there is no break, a stroke draws the part of the way in the region. -/
theorem mem_strokeTo {v : V} (h : v ∈ (r.strokeTo mark breaks p q).vertices) :
    v = mark q ∨ breaks = false ∧
      ∃ part, r.clip 4 ⟨p, q⟩ (r.outcode p) (r.outcode q) = some part ∧
        (v = mark part.first ∨ v = mark part.second) := by
  unfold strokeTo at h
  split at h
  · split at h
    · exact Or.inl (List.mem_singleton.1 h)
    · cases h
  · rename_i hbreaks
    split at h
    · exact Or.inl (List.mem_singleton.1 h)
    · split at h
      · cases h
      · rename_i part hpart
        have hends : v = mark part.first ∨ v = mark part.second := by
          split at h <;> simpa [Stroke.vertices] using h
        exact Or.inr ⟨Bool.eq_false_iff.2 hbreaks, part, hpart, hends⟩

theorem strokeTo_at {i : Nat} {color : Color} {Part : Nat → Vertex N → Vertex N → Prop}
    {Break : Nat → Prop} (hbreaks : Break i → breaks = true)
    (hpart : ∀ part, r.clip 4 ⟨p, q⟩ (r.outcode p) (r.outcode q) = some part →
      Part i ⟨part.first, color⟩ ⟨part.second, color⟩) :
    (r.strokeTo (fun x => (i, ⟨x, color⟩)) breaks p q).At Part Break i := by
  unfold strokeTo
  split
  · intro m hm
    split at hm
    · rw [← Option.mem_some.1 hm]
    · cases hm
  · rename_i hnot
    have hbreak : ¬ Break i := fun h => hnot (hbreaks h)
    split
    · exact ⟨hbreak, rfl⟩
    · split
      · exact nofun
      · rename_i part hclip
        split
        · exact ⟨hbreak, rfl, rfl, hpart part hclip⟩
        · exact ⟨hbreak, rfl, rfl, hpart part hclip⟩

end Region

namespace TrackData

variable {track : TrackData W} {position : MapPosition W} {extent : N} {i : Nat}
  {stroke : Stroke (Nat × Vertex N)}

/-- The strokes of a track come point by point. -/
theorem at_of_getElem?_strokes (h : (track.strokes position extent Prod.mk)[i]? = some stroke) :
    stroke.At (track.EndsOfPart position extent) (track.BreaksAt N position) i := by
  obtain ⟨q, color, hq, ⟨rfl, rfl⟩ | ⟨j, p, c, rfl, hp, rfl⟩⟩ := Region.getElem?_strokes _ _ _ _ h
  · intro m hm
    split at hm
    · rw [← Option.mem_some.1 hm]
    · cases hm
  · obtain ⟨q, hqPoint, rfl, -⟩ := getElem?_path hq
    obtain ⟨p, hpPoint, rfl, -⟩ := getElem?_path hp
    refine Region.strokeTo_at ((breaksAt_iff hpPoint hqPoint).1) fun part hclip => ?_
    exact ⟨part, (partAt_succ hpPoint hqPoint).trans hclip, rfl, rfl⟩

/-- What a stroke draws has the color of the point that it leads to. It lies at the pixel of the point,
or at an end of what is seen of the way to it, where the track does not break. -/
theorem of_mem_vertices (h : (track.strokes position extent Prod.mk)[i]? = some stroke)
    {m : Nat × Vertex N} (hm : m ∈ stroke.vertices) :
    m.1 = i ∧ track.colors[i]? = some m.2.color ∧
      (track.pixelAt? N position i = some m.2.point ∨
        ¬ track.BreaksAt N position i ∧ ∃ part, track.partAt position extent i = some part ∧
          (m.2.point = part.first ∨ m.2.point = part.second)) := by
  obtain ⟨q, color, hq, ⟨rfl, rfl⟩ | ⟨j, p, c, rfl, hp, rfl⟩⟩ := Region.getElem?_strokes _ _ _ _ h
  · obtain ⟨q, hqPoint, rfl, hcolor⟩ := getElem?_path hq
    split at hm
    · rw [List.mem_singleton.1 hm]
      exact ⟨rfl, hcolor, Or.inl (by rw [pixelAt?, hqPoint, Option.map_some])⟩
    · cases hm
  · obtain ⟨q, hqPoint, rfl, hcolor⟩ := getElem?_path hq
    obtain ⟨p, hpPoint, rfl, -⟩ := getElem?_path hp
    rcases Region.mem_strokeTo hm with rfl | ⟨hbreaks, part, hclip, hends⟩
    · exact ⟨rfl, hcolor, Or.inl (by rw [pixelAt?, hqPoint, Option.map_some])⟩
    · have hpart := (partAt_succ hpPoint hqPoint).trans hclip
      have hbreak : ¬ track.BreaksAt N position (j + 1) := by
        rw [breaksAt_iff hpPoint hqPoint, hbreaks]
        exact Bool.false_ne_true
      rcases hends with rfl | rfl
      · exact ⟨rfl, hcolor, Or.inr ⟨hbreak, part, hpart, Or.inl rfl⟩⟩
      · exact ⟨rfl, hcolor, Or.inr ⟨hbreak, part, hpart, Or.inr rfl⟩⟩

theorem comesFrom_of_mem_strokes (h : stroke ∈ track.strokes position extent Prod.mk)
    {m : Nat × Vertex N} (hm : m ∈ stroke.vertices) :
    track.ComesFrom position extent m.1 m.2 := by
  obtain ⟨i, hi⟩ := List.mem_iff_getElem?.1 h
  obtain ⟨rfl, hcolor, hpixel | ⟨-, hpart⟩⟩ := of_mem_vertices hi hm
  · obtain ⟨p, hp, hpoint⟩ := Option.map_eq_some_iff.1 hpixel
    exact ⟨hcolor, Or.inl ⟨p, hp, hpoint.symm⟩⟩
  · exact ⟨hcolor, Or.inr hpart⟩

end TrackData

/-! ## 3. Geometries -/

namespace Builder

/-- Every vertex comes from its own point of the track, in the order of the points. An index that
comes twice is that of the two ends of one part, side by side in one line, and no line goes on over
an index at which the track breaks. -/
theorem vertices_keep_their_places (track : TrackData W) (position : MapPosition W)
    (settings : BuildSettings N) :
    ∃ marked : List (List (Nat × Vertex N)),
      (geometry track position settings).Holds
        (marked.map fun line => (line.map Prod.snd).toArray) ∧
      (∀ line ∈ marked, ∀ m ∈ line,
        track.ComesFrom position settings.clipExtent m.1 m.2) ∧
      (marked.flatten.map Prod.fst).Pairwise (· ≤ ·) ∧
      (∀ i, (marked.flatten.map Prod.fst).count i ≤ 2 ∧
        ((marked.flatten.map Prod.fst).count i = 2 →
          ∃ line ∈ marked, ∃ before u w after, line = before ++ (i, u) :: (i, w) :: after ∧
            track.EndsOfPart position settings.clipExtent i u w)) ∧
      ∀ i, track.BreaksAt N position i → ∀ line ∈ marked,
        (∀ m ∈ line, m.1 < i) ∨ ∀ m ∈ line, i ≤ m.1 := by
  have hholds := geometry_sketch track position settings Prod.snd Prod.mk fun _ _ => rfl
  have horder := Sketch.inOrder_linesOf (Trace.farBy Prod.snd settings.minDistance)
    fun i stroke (h : (track.strokes position settings.clipExtent Prod.mk)[i]? = some stroke) =>
      TrackData.at_of_getElem?_strokes h
  refine ⟨_, hholds, Sketch.all_linesOf _ fun stroke h v hv => ?_,
    List.pairwise_map.2 horder.pairwise_le, fun i => ?_,
    fun i hi line hline => horder.unbroken line hline i hi⟩
  · exact TrackData.comesFrom_of_mem_strokes h hv
  · obtain ⟨hle, htwo⟩ := horder.count_le_two i
    refine ⟨hle, fun heq => ?_⟩
    obtain ⟨line, hline, u, w, rest, hstart, hpart⟩ := htwo heq
    exact ⟨line, hline, [], u, w, rest, hstart, hpart⟩

end Builder

end TourMap
