import TourMap.Proofs.Builder
import TourMap.Proofs.Track

/-!
# Builder: builds in buffers that are used again

`Builder.build` collects its lines in new buffers. A `Workbench` does the same work in the buffers
that the build before left behind, be it complete or given up: it looks at the token at the head of
each block, and takes points and colors by their index, which could be out of bounds. Both give the
same answers (`Workbench.build_eq`), so a build shows nothing of the builds before it.
-/

namespace TourMap

variable {W N : Type}

/-! ## 1. Looks at a token -/

/-- Looks at a token where a block begins. The token counts the looks before the one that finds it
cancelled. -/
def lookAt (i : Nat) (token : Option Nat) : Except Cancelled (Option Nat) :=
  if i % checkInterval = 0 then
    match token with
    | some 0 => .error ⟨⟩
    | some (k + 1) => .ok (some k)
    | none => .ok none
  else .ok token

/-- How many blocks begin before an index. -/
def blocksBefore (i : Nat) : Nat := (i + (checkInterval - 1)) / checkInterval

/-- Whether a token lasts from an index up to another one, without being found cancelled. -/
def Lasts (token : Option Nat) (i j : Nat) : Prop :=
  ∀ k, token = some k → blocksBefore j ≤ blocksBefore i + k

/-- The token after the looks from an index up to another one. -/
def spend (token : Option Nat) (i j : Nat) : Option Nat :=
  token.map fun k => k - (blocksBefore j - blocksBefore i)

theorem blocksBefore_succ {i : Nat} :
    blocksBefore (i + 1) = blocksBefore i + if i % checkInterval = 0 then 1 else 0 := by
  unfold blocksBefore checkInterval
  split <;> omega

theorem blocksBefore_mono {i j : Nat} (h : i ≤ j) : blocksBefore i ≤ blocksBefore j := by
  unfold blocksBefore checkInterval
  omega

theorem lookAt_eq_ok {token : Option Nat} {i j : Nat} (h : Lasts token i j) (hij : i < j) :
    ∃ next, lookAt i token = .ok next ∧ Lasts next (i + 1) j ∧
      spend next (i + 1) j = spend token i j := by
  have hmono : blocksBefore (i + 1) ≤ blocksBefore j := blocksBefore_mono hij
  have hsucc := blocksBefore_succ (i := i)
  unfold lookAt
  split
  · rename_i hi
    rw [if_pos hi] at hsucc
    match token with
    | none => exact ⟨none, rfl, nofun, rfl⟩
    | some 0 =>
      have := h 0 rfl
      omega
    | some (k + 1) =>
      have := h (k + 1) rfl
      refine ⟨some k, rfl, ?_, ?_⟩
      · intro k' hk'
        cases hk'
        omega
      · simp only [spend, Option.map_some, Option.some.injEq]
        omega
  · rename_i hi
    rw [if_neg hi] at hsucc
    refine ⟨token, rfl, ?_, ?_⟩
    · intro k hk
      have := h k hk
      omega
    · rw [spend, spend, hsucc, Nat.add_zero]

/-- A token that does not last is found cancelled now or does not last from the next index on. -/
theorem lookAt_some {k i : Nat} :
    (lookAt i (some k) = .error ⟨⟩ ∧ i = (blocksBefore i + k) * checkInterval) ∨
      ∃ k', lookAt i (some k) = .ok (some k') ∧
        blocksBefore (i + 1) + k' = blocksBefore i + k ∧
        i < (blocksBefore i + k) * checkInterval := by
  have hsucc := blocksBefore_succ (i := i)
  unfold lookAt
  split
  · rename_i hi
    rw [if_pos hi] at hsucc
    match k with
    | 0 =>
      refine Or.inl ⟨rfl, ?_⟩
      unfold blocksBefore checkInterval at *
      omega
    | k + 1 =>
      refine Or.inr ⟨k, rfl, by omega, ?_⟩
      unfold blocksBefore checkInterval at *
      omega
  · rename_i hi
    rw [if_neg hi] at hsucc
    refine Or.inr ⟨k, rfl, by omega, ?_⟩
    unfold blocksBefore checkInterval at *
    omega

/-! ## 2. The workbench -/

theorem zip_drop {colors : Array Color} {i : Nat} {p : Point W} {rest : List (Point W)}
    {color : Color} (h : colors[i]? = some color) :
    (p :: rest).zip (colors.toList.drop i) = (p, color) :: rest.zip (colors.toList.drop (i + 1)) := by
  obtain ⟨hi, rfl⟩ := Array.getElem?_eq_some_iff.1 h
  rw [List.drop_eq_getElem_cons (by rwa [Array.length_toList]), List.zip_cons_cons]
  rfl

/-- What a builder keeps from one build to the next. -/
structure Workbench (W N : Type) where
  projected : Array (Point W)
  /-- The array of points of which a complete projection is at hand. -/
  projectedFrom : Option (NamedPoints W)
  reprojections : Nat
  /-- The line and the arrows that the last build was at. -/
  run : Run N
  arrows : Array (Point N)

namespace Workbench

def new : Workbench W N := ⟨#[], none, 0, .empty, #[]⟩

def hasProjection (w : Workbench W N) (track : TrackData W) : Bool :=
  w.projectedFrom.any fun held =>
    held.name == track.source.name && held.points.size == track.points.size

variable [Mercator W]

/-- Projects points, the first of which has the given index, after those already `done`. -/
def projectFrom : (i : Nat) → List (GeoPoint W) → (token : Option Nat) →
    (done : Array (Point W)) → Array (Point W) × Except Cancelled (Option Nat)
  | _, [], token, done => (done, .ok token)
  | i, p :: rest, token, done =>
    match lookAt i token with
    | .error e => (done, .error e)
    | .ok token => projectFrom (i + 1) rest token (done.push p.project)

/-- Projects a track, unless its projection is at hand. -/
def updateProjection (w : Workbench W N) (track : TrackData W) (token : Option Nat) :
    Workbench W N × Except Cancelled (Option Nat) :=
  if w.hasProjection track then (w, .ok token)
  else
    let w := { w with projectedFrom := none }
    match projectFrom 0 track.points.toList token #[] with
    | (projected, .error e) => ({ w with projected }, .error e)
    | (projected, .ok token) =>
      ({ w with
          projected
          projectedFrom := some track.source
          reprojections := w.reprojections + 1 }, .ok token)

variable [Arithmetic N] [Resolution W N]

/-- Follows projected points, the first of which has the given index, until the token is found
cancelled. `none` is an index out of bounds. -/
def follow (settings : BuildSettings N) (position : MapPosition W) (colors : Array Color) :
    (i : Nat) → List (Point W) → (token : Option Nat) → Trace W N →
      Option (Trace W N × Except Cancelled (Option Nat))
  | _, [], token, t => some (t, .ok token)
  | i, p :: rest, token, t =>
    match lookAt i token with
    | .error e => some (t, .error e)
    | .ok token =>
      match colors[i]? with
      | none => none
      | some color =>
        follow settings position colors (i + 1) rest token
          (t.step settings i p (position.pixel p) color)

/-- Starts a trace in buffers at hand. -/
def start (settings : BuildSettings N) (boundaries : List Nat) (p : Point W) (pixel : Pixel N)
    (color : Color) (run : Run N) (arrows : Array (Point N)) (bucket : LineBucket N) :
    Trace W N :=
  let clipper := (LineClipper.centered settings.clipExtent).start pixel.point
  { clipper
    run := if clipper.isInside then .start ⟨pixel.point, color⟩ else run
    bucket
    arrows := if clipper.isInside then arrows.push pixel.point else arrows
    lastArrow := pixel.point
    flip := pixel.flip
    lastX := p.x
    boundaries }

/-- Traces the projection at hand. Whatever the buffers held before is cleared first. -/
def trace (w : Workbench W N) (track : TrackData W) (position : MapPosition W)
    (settings : BuildSettings N) (buckets : RenderBuckets N) (token : Option Nat) :
    Option (Workbench W N × RenderBuckets N × Except Cancelled BuildStats) :=
  let bucket := { buckets.lineBucketOrNew.reset with style := settings.style }
  let w := { w with run := .empty, arrows := #[] }
  match w.projected[0]?, track.colors[0]? with
  | some p, some color =>
    let t := start settings track.boundaries p (position.pixel p) color w.run w.arrows bucket
    match follow settings position track.colors 1 w.projected.toList.tail token t with
    | none => none
    | some (t, .error e) =>
      some ({ w with run := t.run, arrows := t.arrows }, ⟨some t.bucket⟩, .error e)
    | some (t, .ok _) =>
      let bucket := Builder.finish settings t
      some ({ w with run := .empty, arrows := t.arrows }, ⟨some bucket⟩,
        .ok (Builder.statsOf track bucket))
  | _, _ => none

/-- Builds the geometry of a track. `none` is an index out of bounds. -/
def build (w : Workbench W N) (track : TrackData W) (position : MapPosition W)
    (settings : BuildSettings N) (buckets : RenderBuckets N) (cancelledAt : Option Nat) :
    Option (Workbench W N × RenderBuckets N × Except Cancelled BuildStats) :=
  if track.isEmpty then some (w, .empty, .ok ⟨0, 0, 0, 0⟩)
  else
    match w.updateProjection track cancelledAt with
    | (w, .error e) => some (w, buckets, .error e)
    | (w, .ok token) => w.trace track position settings buckets token

/-! ## 3. The passes over the points -/

omit [Arithmetic N] [Resolution W N] in
theorem projectFrom_eq {i : Nat} {points : List (GeoPoint W)} {token : Option Nat}
    (h : Lasts token i (i + points.length)) (done : Array (Point W)) :
    projectFrom i points token done =
      (done ++ points.map GeoPoint.project, .ok (spend token i (i + points.length))) := by
  induction points generalizing i token done with
  | nil => simp [projectFrom, spend]
  | cons p rest ih =>
    rw [List.length_cons, Nat.add_comm rest.length, ← Nat.add_assoc] at h ⊢
    obtain ⟨next, hlook, hlasts, hspend⟩ := lookAt_eq_ok h (by omega)
    rw [projectFrom, hlook]
    simp only [ih hlasts, hspend]
    simp

theorem projectFrom_cancelled {i k : Nat} {points : List (GeoPoint W)}
    (h : blocksBefore i + k < blocksBefore (i + points.length)) (done : Array (Point W)) :
    ∃ done', projectFrom i points (some k) done = (done', .error ⟨⟩) := by
  induction points generalizing i k done with
  | nil =>
    rw [List.length_nil, Nat.add_zero] at h
    omega
  | cons p rest ih =>
    rw [List.length_cons, Nat.add_comm rest.length, ← Nat.add_assoc] at h
    rw [projectFrom]
    obtain ⟨hlook, -⟩ | ⟨k', hlook, hk, -⟩ := lookAt_some (k := k) (i := i)
    · rw [hlook]
      exact ⟨done, rfl⟩
    · rw [hlook]
      exact ih (by omega) _

variable {settings : BuildSettings N} {position : MapPosition W} {colors : Array Color}

/-- With a token that lasts, all points are followed; no color is missing. -/
theorem follow_eq {i : Nat} {points : List (Point W)} {token : Option Nat}
    (hcolors : i + points.length ≤ colors.size) (h : Lasts token i (i + points.length))
    (t : Trace W N) :
    follow settings position colors i points token t =
      some (Trace.follow settings position i (points.zip (colors.toList.drop i)) t,
        .ok (spend token i (i + points.length))) := by
  induction points generalizing i token t with
  | nil => simp [follow, Trace.follow, spend]
  | cons p rest ih =>
    rw [List.length_cons, Nat.add_comm rest.length, ← Nat.add_assoc] at h hcolors ⊢
    obtain ⟨next, hlook, hlasts, hspend⟩ := lookAt_eq_ok h (by omega)
    have hcolor : colors[i]? = some colors[i] := Array.getElem?_eq_getElem (by omega)
    rw [follow, hlook, zip_drop hcolor, Trace.follow]
    simp only [hcolor, ih hcolors hlasts, hspend]

/-- With a token that does not last, the points are followed up to the block in question. -/
theorem follow_cancelled {i k : Nat} {points : List (Point W)}
    (hcolors : i + points.length ≤ colors.size)
    (h : blocksBefore i + k < blocksBefore (i + points.length)) (t : Trace W N) :
    follow settings position colors i points (some k) t =
      some (Trace.follow settings position i ((points.zip (colors.toList.drop i)).take
        ((blocksBefore i + k) * checkInterval - i)) t, .error ⟨⟩) := by
  induction points generalizing i k t with
  | nil =>
    rw [List.length_nil, Nat.add_zero] at h
    omega
  | cons p rest ih =>
    rw [List.length_cons, Nat.add_comm rest.length, ← Nat.add_assoc] at h hcolors
    have hcolor : colors[i]? = some colors[i] := Array.getElem?_eq_getElem (by omega)
    rw [follow, zip_drop hcolor]
    obtain ⟨hlook, hi⟩ | ⟨k', hlook, hk, hi⟩ := lookAt_some (k := k) (i := i)
    · rw [hlook, ← hi, Nat.sub_self]
      rfl
    · obtain ⟨n, hn⟩ := Nat.exists_eq_add_of_lt hi
      have htake : (blocksBefore i + k) * checkInterval - i = n + 1 := by omega
      have htake' : (blocksBefore (i + 1) + k') * checkInterval - (i + 1) = n := by
        rw [hk]
        omega
      rw [hlook, htake, List.take_succ_cons, Trace.follow]
      simp only [hcolor]
      rw [ih hcolors (by omega), htake']

section Trace

variable (settings position) {w : Workbench W N} {track : TrackData W} {p : Point W}
  {rest : List (Point W)} {color : Color} {others : List Color}
  (hprojected : w.projected.toList = p :: rest)
  (hcolors : track.colors.toList = color :: others) (hsize : 1 + rest.length ≤ track.colors.size)

include hprojected hcolors

theorem trace_of_lists (buckets : RenderBuckets N) (token : Option Nat) :
    w.trace track position settings buckets token =
      match follow settings position track.colors 1 rest token
        (Trace.start settings track.boundaries p (position.pixel p) color) with
      | none => none
      | some (t, .error e) =>
        some ({ w with run := t.run, arrows := t.arrows }, ⟨some t.bucket⟩, .error e)
      | some (t, .ok _) =>
        some ({ w with run := .empty, arrows := t.arrows },
          ⟨some (Builder.finish settings t)⟩,
          .ok (Builder.statsOf track (Builder.finish settings t))) := by
  have hp : w.projected[0]? = some p := by
    rw [← Array.getElem?_toList, hprojected]
    rfl
  have hcolor : track.colors[0]? = some color := by
    rw [← Array.getElem?_toList, hcolors]
    rfl
  unfold trace
  dsimp only
  rw [hp, hcolor, hprojected]
  rfl

include hsize

theorem trace_eq (buckets : RenderBuckets N) {token : Option Nat}
    (h : Lasts token 1 (1 + rest.length)) :
    ∃ run arrows, w.trace track position settings buckets token =
      some ({ w with run, arrows },
        ⟨some (Builder.finish settings (Trace.follow settings position 1 (rest.zip others)
          (Trace.start settings track.boundaries p (position.pixel p) color)))⟩,
        .ok (Builder.statsOf track (Builder.finish settings
          (Trace.follow settings position 1 (rest.zip others)
            (Trace.start settings track.boundaries p (position.pixel p) color))))) := by
  have hothers : track.colors.toList.drop 1 = others := by
    rw [hcolors]
    rfl
  rw [trace_of_lists settings position hprojected hcolors, follow_eq hsize h, hothers]
  exact ⟨_, _, rfl⟩

theorem trace_cancelled (buckets : RenderBuckets N) {k : Nat}
    (h : 1 + k < blocksBefore (1 + rest.length)) :
    ∃ run arrows, w.trace track position settings buckets (some k) =
      some ({ w with run, arrows },
        ⟨some (Trace.follow settings position 1
          ((rest.zip others).take ((1 + k) * checkInterval - 1))
          (Trace.start settings track.boundaries p (position.pixel p) color)).bucket⟩,
        .error ⟨⟩) := by
  have hothers : track.colors.toList.drop 1 = others := by
    rw [hcolors]
    rfl
  have hblock : blocksBefore 1 + k < blocksBefore (1 + rest.length) := h
  rw [trace_of_lists settings position hprojected hcolors, follow_cancelled hsize hblock, hothers]
  exact ⟨_, _, rfl⟩

end Trace

/-! ## 4. The same answers -/

/-- Whether a workbench and a builder have the same projection at hand, that of the points the
workbench holds. -/
structure Matches (w : Workbench W N) (b : Builder W) : Prop where
  name : b.projectedFrom = w.projectedFrom.map (·.name)
  reprojections : b.reprojections = w.reprojections
  projected : ∀ held, w.projectedFrom = some held →
    w.projected = held.points.map GeoPoint.project ∧ b.projected = w.projected

/-- Whether the points of a track are those that the workbench holds, if these have their name. -/
def Admits (w : Workbench W N) (track : TrackData W) : Prop :=
  ∀ held, w.projectedFrom = some held → held.name = track.source.name →
    track.isEmpty = true ∨ held.points = track.points

variable {w : Workbench W N} {b : Builder W} {track : TrackData W}

omit [Arithmetic N] [Resolution W N]

theorem matches_new : (new : Workbench W N).Matches .new := ⟨rfl, rfl, nofun⟩

omit [Mercator W] in
theorem admits_new : (new : Workbench W N).Admits track := by
  intro held hheld
  cases hheld

theorem Matches.hasProjection_eq (h : w.Matches b) :
    w.hasProjection track = b.hasProjection track := by
  unfold Workbench.hasProjection Builder.hasProjection
  cases hfrom : w.projectedFrom with
  | none =>
    rw [h.name, hfrom]
    rfl
  | some held =>
    obtain ⟨hw, hb⟩ := h.projected held hfrom
    rw [h.name, hfrom, hb, hw, Array.size_map]
    rfl

theorem Matches.updateProjection_cancelled (h : w.Matches b) {k : Nat}
    (hk : k < b.projectionChecks track) :
    ∃ w', w.updateProjection track (some k) = (w', .error ⟨⟩) ∧ w'.Matches b.forget := by
  by_cases hp : b.hasProjection track = true
  · rw [Builder.projectionChecks, if_pos hp] at hk
    omega
  · rw [Builder.projectionChecks, if_neg hp] at hk
    have hblocks : blocksBefore 0 + k < blocksBefore (0 + track.points.toList.length) := by
      rw [Nat.zero_add, Array.length_toList, show blocksBefore 0 = 0 from rfl, Nat.zero_add]
      exact hk
    obtain ⟨done, hdone⟩ := projectFrom_cancelled hblocks #[]
    unfold updateProjection
    rw [if_neg (by rwa [h.hasProjection_eq])]
    dsimp only
    rw [hdone]
    exact ⟨_, rfl, rfl, h.reprojections, nofun⟩

theorem Matches.updateProjection_eq (h : w.Matches b) (hadmits : w.Admits track)
    (hempty : track.isEmpty = false) {token : Option Nat}
    (htoken : ∀ k, token = some k → b.projectionChecks track ≤ k) :
    ∃ w', w.updateProjection track token =
        (w', .ok (token.map (· - b.projectionChecks track))) ∧
      w'.projected = track.points.map GeoPoint.project ∧
      (b.project track).projected = track.points.map GeoPoint.project ∧
      w'.Matches (b.project track) := by
  unfold updateProjection Builder.project
  rw [h.hasProjection_eq]
  unfold Builder.projectionChecks at htoken ⊢
  by_cases hp : b.hasProjection track = true
  · simp only [if_pos hp]
    rw [← h.hasProjection_eq, Workbench.hasProjection, Option.any_eq_true] at hp
    obtain ⟨held, hfrom, hsame⟩ := hp
    rw [Bool.and_eq_true, beq_iff_eq] at hsame
    obtain hpoints := (hadmits held hfrom hsame.1).resolve_left (by rw [hempty]; exact nofun)
    obtain ⟨hw, hb⟩ := h.projected held hfrom
    have hprojected : w.projected = track.points.map GeoPoint.project := by rw [hw, hpoints]
    refine ⟨w, ?_, hprojected, by rw [hb, hprojected], h⟩
    cases token <;> rfl
  · simp only [if_neg hp] at htoken ⊢
    have hlasts : Lasts token 0 (0 + track.points.toList.length) := by
      intro k hk
      rw [Nat.zero_add, Array.length_toList, show blocksBefore 0 = 0 from rfl, Nat.zero_add]
      exact htoken k hk
    rw [projectFrom_eq hlasts]
    have hprojected : (#[] : Array (Point W)) ++ track.points.toList.map GeoPoint.project =
        track.points.map GeoPoint.project := by
      simp [← Array.toList_map]
    have htoken' : spend token 0 (0 + track.points.toList.length) =
        token.map (· - (track.size + (checkInterval - 1)) / checkInterval) := by
      rw [spend, Nat.zero_add, Array.length_toList]
      rfl
    simp only [hprojected, htoken']
    refine ⟨_, rfl, rfl, trivial, rfl, by rw [h.reprojections], ?_⟩
    intro held hheld
    cases hheld
    exact ⟨rfl, rfl⟩

end Workbench

namespace Builder

variable [Mercator W] [Arithmetic N] [Resolution W N] {b : Builder W} {track : TrackData W}
  {position : MapPosition W} {settings : BuildSettings N} {buckets : RenderBuckets N}

/-- A token that lasts is as good as one that is never cancelled. -/
theorem build_of_checks_le {cancelledAt : Option Nat}
    (h : ∀ k, cancelledAt = some k → b.checks track ≤ k) :
    b.build track position settings buckets cancelledAt =
      b.build track position settings buckets none := by
  cases cancelledAt with
  | none => rfl
  | some k =>
    have hk := h k rfl
    unfold checks at hk
    unfold build
    split
    · rfl
    · dsimp only
      rw [if_neg (by omega), if_neg (by omega)]

theorem build_of_lt_projectionChecks (hempty : track.isEmpty = false) {k : Nat}
    (h : k < b.projectionChecks track) :
    b.build track position settings buckets (some k) = (b.forget, buckets, .error ⟨⟩) := by
  unfold build
  rw [hempty]
  dsimp only
  rw [if_neg nofun, if_pos h]

/-- A build that is given up during the trace leaves the lines of the blocks before. -/
theorem build_of_lt_checks {p : Point W} {color : Color} {rest : List (Point W × Color)} {k : Nat}
    (hpath : (b.project track).projected.toList.zip track.colors.toList = (p, color) :: rest)
    (hempty : track.isEmpty = false) (hprojection : b.projectionChecks track ≤ k)
    (h : k < b.checks track) :
    b.build track position settings buckets (some k) =
      (b.project track,
        ⟨some (Trace.follow settings position 1
          (rest.take ((k - b.projectionChecks track + 1) * checkInterval - 1))
          (Trace.start settings track.boundaries p (position.pixel p) color)).bucket⟩,
        .error ⟨⟩) := by
  unfold checks at h
  have hstop : ∃ n, (k - b.projectionChecks track + 1) * checkInterval = n + 1 := by
    unfold checkInterval
    exact ⟨(k - b.projectionChecks track + 1) * 1024 - 1, by omega⟩
  obtain ⟨n, hn⟩ := hstop
  unfold build
  rw [hempty]
  dsimp only
  rw [if_neg nofun, if_neg (by omega), if_pos (by omega)]
  unfold trace
  dsimp only
  rw [hpath, hn, List.take_succ_cons]
  rfl

theorem build_none_of_path {p : Point W} {color : Color} {rest : List (Point W × Color)}
    (hpath : (b.project track).projected.toList.zip track.colors.toList = (p, color) :: rest)
    (hempty : track.isEmpty = false) :
    b.build track position settings buckets none =
      (b.project track,
        ⟨some (finish settings (Trace.follow settings position 1 rest
          (Trace.start settings track.boundaries p (position.pixel p) color)))⟩,
        .ok (statsOf track (finish settings (Trace.follow settings position 1 rest
          (Trace.start settings track.boundaries p (position.pixel p) color))))) := by
  unfold build
  rw [hempty]
  dsimp only
  rw [if_neg nofun]
  unfold trace
  dsimp only
  rw [hpath]
  rfl

end Builder

namespace Workbench

variable [Mercator W] [Arithmetic N] [Resolution W N] {w : Workbench W N} {b : Builder W}
  {track : TrackData W} {buckets : RenderBuckets N}

/-- The trace of a projected track is given up at the look at which the builder gives up, and else
complete. -/
theorem trace_answers (position : MapPosition W) (settings : BuildSettings N)
    (buckets : RenderBuckets N) {cancelledAt : Option Nat} (hempty : track.isEmpty = false)
    (hw : w.projected = track.points.map GeoPoint.project)
    (hb : (b.project track).projected = track.points.map GeoPoint.project)
    (htoken : ∀ k, cancelledAt = some k → b.projectionChecks track ≤ k) :
    ∃ run arrows, w.trace track position settings buckets
        (cancelledAt.map (· - b.projectionChecks track)) =
          some ({ w with run, arrows },
            (b.build track position settings buckets cancelledAt).2) ∧
      (b.build track position settings buckets cancelledAt).1 = b.project track := by
  obtain ⟨p, points, color, others, hpoints, hcolors, hsize, hcolorsSize⟩ :=
    TrackData.exists_first hempty
  let rest := points.map GeoPoint.project
  have hall : w.projected.toList = p.project :: rest := by
    rw [hw, Array.toList_map, hpoints, List.map_cons]
  have hrest : rest.length = points.length := List.length_map _
  have hpath : (b.project track).projected.toList.zip track.colors.toList =
      (p.project, color) :: rest.zip others := by
    rw [hb, ← hw, hall, hcolors, List.zip_cons_cons]
  -- The first point is traced without a look.
  have hblocks : blocksBefore (1 + rest.length) = 1 + Builder.traceChecks track := by
    unfold blocksBefore Builder.traceChecks checkInterval
    omega
  by_cases hlasts : ∀ k, cancelledAt = some k → b.checks track ≤ k
  · have hafter : Lasts (cancelledAt.map (· - b.projectionChecks track)) 1 (1 + rest.length) := by
      intro k hk
      obtain ⟨k, hk', rfl⟩ := Option.map_eq_some_iff.1 hk
      have := hlasts k hk'
      rw [hblocks, show blocksBefore 1 = 1 from rfl]
      unfold Builder.checks at this
      omega
    obtain ⟨run, arrows, htrace⟩ :=
      trace_eq settings position hall hcolors (by omega) buckets hafter
    rw [Builder.build_of_checks_le hlasts, Builder.build_none_of_path hpath hempty, htrace]
    exact ⟨run, arrows, rfl, rfl⟩
  · obtain ⟨k, rfl, hk⟩ : ∃ k, cancelledAt = some k ∧ k < b.checks track := by
      simpa using hlasts
    have hblock : 1 + (k - b.projectionChecks track) < blocksBefore (1 + rest.length) := by
      have := htoken k rfl
      rw [hblocks]
      unfold Builder.checks at hk
      omega
    obtain ⟨run, arrows, htrace⟩ :=
      trace_cancelled settings position hall hcolors (by omega) buckets hblock
    rw [Builder.build_of_lt_checks hpath hempty (htoken k rfl) hk, Option.map_some, htrace,
      Nat.add_comm 1 (k - _)]
    exact ⟨run, arrows, rfl, rfl⟩

/-- A workbench gives the answers of a builder with the same projection at hand, and no index is out
of bounds. -/
theorem build_eq (h : w.Matches b) (hadmits : w.Admits track) (position : MapPosition W)
    (settings : BuildSettings N) (buckets : RenderBuckets N) (cancelledAt : Option Nat) :
    ∃ w', w.build track position settings buckets cancelledAt =
        some (w', (b.build track position settings buckets cancelledAt).2) ∧
      w'.Matches (b.build track position settings buckets cancelledAt).1 := by
  cases hempty : track.isEmpty with
  | true =>
    unfold Workbench.build Builder.build
    rw [hempty]
    exact ⟨w, rfl, h⟩
  | false =>
    by_cases hgivenUp : ∃ k, cancelledAt = some k ∧ k < b.projectionChecks track
    · -- Given up while the track is projected.
      obtain ⟨k, rfl, hk⟩ := hgivenUp
      obtain ⟨w', hw', hmatches⟩ := h.updateProjection_cancelled hk
      rw [Builder.build_of_lt_projectionChecks hempty hk]
      refine ⟨w', ?_, hmatches⟩
      unfold Workbench.build
      rw [hempty, hw']
      rfl
    · have htoken (k : Nat) (hk : cancelledAt = some k) : b.projectionChecks track ≤ k :=
        Nat.le_of_not_lt fun hlt => hgivenUp ⟨k, hk, hlt⟩
      obtain ⟨w', hw', hprojected, hbprojected, hmatches⟩ :=
        h.updateProjection_eq hadmits hempty htoken
      obtain ⟨run, arrows, htrace, hbuilder⟩ :=
        trace_answers position settings buckets hempty hprojected hbprojected htoken
      refine ⟨{ w' with run, arrows }, ?_, ?_⟩
      · unfold Workbench.build
        rw [hempty, hw']
        exact htrace
      · rw [hbuilder]
        exact ⟨hmatches.name, hmatches.reprojections, hmatches.projected⟩

/-! ## 5. No memory -/

/-- The builders, workbenches and buckets that calls lead to, be they complete or given up. -/
inductive Used : Builder W → Workbench W N → RenderBuckets N → Prop where
  | new (buckets : RenderBuckets N) : Used .new .new buckets
  | build {b : Builder W} {w w' : Workbench W N} {buckets buckets' : RenderBuckets N}
      {track : TrackData W} {position : MapPosition W} {settings : BuildSettings N}
      {cancelledAt : Option Nat} {result : Except Cancelled BuildStats} (h : Used b w buckets)
      (hadmits : w.Admits track)
      (hbuild : w.build track position settings buckets cancelledAt =
        some (w', buckets', result)) :
      Used (b.build track position settings buckets cancelledAt).1 w' buckets'

theorem Used.matches (h : Used b w buckets) : w.Matches b := by
  induction h with
  | new => exact matches_new
  | build h hadmits hbuild ih =>
    obtain ⟨w', hw', hmatches⟩ := build_eq ih hadmits _ _ _ _
    rw [hbuild] at hw'
    obtain ⟨rfl, -⟩ := Prod.mk.inj (Option.some.inj hw')
    exact hmatches

omit [Arithmetic N] [Resolution W N] in
theorem Matches.path_eq (h : w.Matches b) (hadmits : w.Admits track)
    (hempty : track.isEmpty = false) :
    (b.project track).projected.toList.zip track.colors.toList = track.path := by
  have hnever (k : Nat) (hk : none = some k) : b.projectionChecks track ≤ k := nomatch hk
  obtain ⟨-, -, -, hprojected, -⟩ := h.updateProjection_eq hadmits hempty hnever
  rw [hprojected, Array.toList_map, TrackData.path]

/-- Whatever was built before, a build is given up, which takes a token that is found cancelled, or it
gives the answer of a new builder with empty buckets; and no index is out of bounds. -/
theorem build_forgets (h : Used b w buckets) (hadmits : w.Admits track)
    (position : MapPosition W) (settings : BuildSettings N) (cancelledAt : Option Nat) :
    (∃ w', w.build track position settings buckets cancelledAt =
      some (w', (b.build track position settings buckets cancelledAt).2)) ∧
    (((b.build track position settings buckets cancelledAt).2.2 = .error ⟨⟩ ∧
        ∃ k, cancelledAt = some k ∧ k < b.checks track) ∨
      ∃ geometry stats,
        (b.build track position settings buckets cancelledAt).2 = (geometry, .ok stats) ∧
        ((Builder.new : Builder W).build track position settings .empty none).2 =
          (geometry, .ok stats)) := by
  obtain ⟨w', hw', -⟩ := build_eq h.matches hadmits position settings buckets cancelledAt
  refine ⟨⟨w', hw'⟩, ?_⟩
  cases hempty : track.isEmpty with
  | true =>
    unfold Builder.build
    rw [hempty]
    exact Or.inr ⟨_, _, rfl, rfl⟩
  | false =>
    obtain ⟨p, points, color, colors, hpoints, hcolors, -⟩ := TrackData.exists_first hempty
    have hpath : track.path = (p.project, color) :: (points.map GeoPoint.project).zip colors := by
      rw [TrackData.path, hpoints, hcolors, List.map_cons, List.zip_cons_cons]
    have hthis := (h.matches.path_eq hadmits hempty).trans hpath
    have hnew := (matches_new.path_eq (N := N) admits_new hempty).trans hpath
    by_cases hlasts : ∀ k, cancelledAt = some k → b.checks track ≤ k
    · rw [Builder.build_of_checks_le hlasts, Builder.build_none_of_path hthis hempty,
        Builder.build_none_of_path hnew hempty]
      exact Or.inr ⟨_, _, rfl, rfl⟩
    · obtain ⟨k, rfl, hk⟩ : ∃ k, cancelledAt = some k ∧ k < b.checks track := by
        simpa using hlasts
      refine Or.inl ⟨?_, k, rfl, hk⟩
      by_cases hprojection : k < b.projectionChecks track
      · rw [Builder.build_of_lt_projectionChecks hempty hprojection]
      · rw [Builder.build_of_lt_checks hthis hempty (Nat.le_of_not_lt hprojection) hk]

/-- A build after one that was given up at its first look at the token. -/
theorem build_forgets_after_cancelled :
    Used (Builder.new.build shortTrack .corner (.default : BuildSettings Single) .empty (some 0)).1
        (.new : Workbench Double Single) .empty ∧
      (.new : Workbench Double Single).Admits shortTrack ∧
      (∃ w', (.new : Workbench Double Single).build shortTrack .corner .default .empty none =
        some (w', ((Builder.forget .new).build shortTrack .corner .default .empty none).2)) ∧
      ∃ geometry stats,
        ((Builder.forget .new).build shortTrack .corner (.default : BuildSettings Single) .empty
          none).2 = (geometry, .ok stats) ∧
        (Builder.new.build shortTrack .corner .default .empty none).2 = (geometry, .ok stats) := by
  have hused : Used
      (Builder.new.build shortTrack .corner (.default : BuildSettings Single) .empty (some 0)).1
      (.new : Workbench Double Single) .empty :=
    .build (.new .empty) admits_new rfl
  have hadmits : (.new : Workbench Double Single).Admits shortTrack := admits_new
  obtain ⟨hbuild, ⟨-, k, hk, -⟩ | hanswer⟩ := build_forgets hused hadmits .corner .default none
  · cases hk
  · exact ⟨hused, hadmits, hbuild, hanswer⟩

end Workbench

end TourMap
