import Mathlib.Data.List.Chain
import TourMap.Proofs.Trace.Arrows
import TourMap.Proofs.Trace.Sketch

/-!
# Samples: points taken greedily

Of the candidates along a track one is taken as soon as it is far enough from the one taken last
(`sampleFrom`). A trace takes its arrows like this from the points that it reaches inside the clip
region without a break (`Trace.follow_taken`).
-/

namespace TourMap

/-! ## 1. Greedy samples -/

section

variable {A : Type} (far : A → A → Bool)

/-- The candidates taken, with their places, if `last` was taken before. The first place is `i`; there
need not be a candidate at every place. -/
def sampleFrom : (last : A) → (i : Nat) → (candidates : List (Option A)) → List (Nat × A)
  | _, _, [] => []
  | last, i, none :: rest => sampleFrom last (i + 1) rest
  | last, i, some p :: rest =>
    if far last p then (i, p) :: sampleFrom p (i + 1) rest else sampleFrom last (i + 1) rest

/-- The sample taken last before the place `i`, and `first` if there is none. -/
def lastSample (first : A) (samples : List (Nat × A)) (i : Nat) : A :=
  ((samples.filter (·.1 < i)).getLast?.map Prod.snd).getD first

variable {far} {last first p q : A} {i j k : Nat} {candidates : List (Option A)}
  {samples : List (Nat × A)}

theorem lastSample_of_le (h : ∀ s ∈ samples, i ≤ s.1) : lastSample first samples i = first := by
  have hnone : samples.filter (·.1 < i) = [] :=
    List.filter_eq_nil_iff.2 fun s hs => by simpa using h s hs
  rw [lastSample, hnone]
  rfl

theorem lastSample_cons (h : j < i) :
    lastSample first ((j, p) :: samples) i = lastSample p samples i := by
  rw [lastSample, lastSample, List.filter_cons_of_pos (by simpa using h), List.getLast?_cons]
  cases (samples.filter (·.1 < i)).getLast? <;> rfl

theorem le_of_mem_sampleFrom {s : Nat × A} (h : s ∈ sampleFrom far last i candidates) :
    i ≤ s.1 := by
  induction candidates generalizing last i with
  | nil => cases h
  | cons candidate rest ih =>
    cases candidate with
    | none => exact Nat.le_of_succ_le (ih h)
    | some p =>
      rw [sampleFrom] at h
      split at h
      · rcases List.mem_cons.1 h with rfl | h
        · exact Nat.le_refl i
        · exact Nat.le_of_succ_le (ih h)
      · exact Nat.le_of_succ_le (ih h)

theorem sampleFrom_pairwise (far : A → A → Bool) (last : A) (i : Nat)
    (candidates : List (Option A)) :
    (sampleFrom far last i candidates).Pairwise (·.1 < ·.1) := by
  induction candidates generalizing last i with
  | nil => exact .nil
  | cons candidate rest ih =>
    cases candidate with
    | none => exact ih last (i + 1)
    | some p =>
      rw [sampleFrom]
      split
      · exact List.pairwise_cons.2 ⟨fun s hs => le_of_mem_sampleFrom hs, ih p (i + 1)⟩
      · exact ih last (i + 1)

theorem sampleFrom_isChain (far : A → A → Bool) (last : A) (i j : Nat)
    (candidates : List (Option A)) :
    List.IsChain (fun s s' => far s.2 s'.2 = true)
      ((j, last) :: sampleFrom far last i candidates) := by
  induction candidates generalizing last i j with
  | nil => exact .singleton _
  | cons candidate rest ih =>
    cases candidate with
    | none => exact ih last (i + 1) j
    | some p =>
      rw [sampleFrom]
      split
      · rename_i hfar
        exact .cons_cons hfar (ih p (i + 1) i)
      · exact ih last (i + 1) j

theorem lastSample_sampleFrom (far : A → A → Bool) (last : A) (i : Nat)
    (candidates : List (Option A)) :
    lastSample last (sampleFrom far last i candidates) i = last :=
  lastSample_of_le fun _ hs => le_of_mem_sampleFrom hs

theorem mem_sampleFrom_iff :
    (i + k, q) ∈ sampleFrom far last i candidates ↔ candidates[k]? = some (some q) ∧
      far (lastSample last (sampleFrom far last i candidates) (i + k)) q = true := by
  -- Induction on the candidates to come: what is taken of the first one is the last sample for the
  -- others.
  induction candidates generalizing last i k with
  | nil => simp [sampleFrom]
  | cons candidate rest ih =>
    have hafter {last : A} : (i, q) ∉ sampleFrom far last (i + 1) rest := fun h =>
      Nat.not_succ_le_self i (le_of_mem_sampleFrom h)
    cases k with
    | zero =>
      rw [Nat.add_zero, lastSample_sampleFrom, List.getElem?_cons_zero, Option.some_inj]
      cases candidate with
      | none => exact iff_of_false hafter nofun
      | some p =>
        rw [sampleFrom, Option.some_inj]
        split
        · rename_i hfar
          rw [List.mem_cons, or_iff_left hafter, Prod.mk.injEq]
          constructor
          · rintro ⟨-, rfl⟩
            exact ⟨rfl, hfar⟩
          · rintro ⟨rfl, -⟩
            exact ⟨rfl, rfl⟩
        · rename_i hnear
          refine iff_of_false hafter ?_
          rintro ⟨rfl, hfar⟩
          exact hnear hfar
    | succ k =>
      rw [List.getElem?_cons_succ, show i + (k + 1) = i + 1 + k by omega]
      cases candidate with
      | none => exact ih
      | some p =>
        rw [sampleFrom]
        split
        · have hne : (i + 1 + k, q) ≠ (i, p) := fun heq => by
            have := congrArg Prod.fst heq
            dsimp only at this
            omega
          rw [lastSample_cons (by omega), List.mem_cons, or_iff_right hne, ih]
        · exact ih

variable (far) in
/-- The candidates taken after a first point, which counts as taken and is a sample itself if it is to
be kept. -/
def samplesAfter (keep : Bool) (first : A) (candidates : List (Option A)) : List (Nat × A) :=
  (if keep then [(0, first)] else []) ++ sampleFrom far first 1 candidates

theorem samplesAfter_pairwise (far : A → A → Bool) (keep : Bool) (first : A)
    (candidates : List (Option A)) :
    (samplesAfter far keep first candidates).Pairwise (·.1 < ·.1) := by
  have hrest := sampleFrom_pairwise far first 1 candidates
  cases keep with
  | true => exact List.pairwise_cons.2 ⟨fun s hs => le_of_mem_sampleFrom hs, hrest⟩
  | false => exact hrest

theorem samplesAfter_isChain (far : A → A → Bool) (keep : Bool) (first : A)
    (candidates : List (Option A)) :
    (samplesAfter far keep first candidates).IsChain fun s s' => far s.2 s'.2 = true := by
  have hchain := sampleFrom_isChain far first 1 0 candidates
  cases keep with
  | true => exact hchain
  | false => exact hchain.of_cons

theorem zero_mem_samplesAfter_iff {keep : Bool} :
    (0, q) ∈ samplesAfter far keep first candidates ↔ keep = true ∧ q = first := by
  have hlater : (0, q) ∉ sampleFrom far first 1 candidates := fun h =>
    Nat.not_succ_le_zero 0 (le_of_mem_sampleFrom h)
  cases keep with
  | true =>
    change (0, q) ∈ (0, first) :: sampleFrom far first 1 candidates ↔ _
    rw [List.mem_cons, or_iff_left hlater, Prod.mk.injEq]
    exact and_congr_left' (iff_of_true rfl rfl)
  | false => exact iff_of_false hlater fun h => Bool.false_ne_true h.1

theorem succ_mem_samplesAfter_iff {keep : Bool} :
    (i + 1, q) ∈ samplesAfter far keep first candidates ↔ candidates[i]? = some (some q) ∧
      far (lastSample first (samplesAfter far keep first candidates) (i + 1)) q = true := by
  rw [Nat.add_comm i 1]
  cases keep with
  | true =>
    -- The first point is the last sample as long as there is none after it.
    have hne : (1 + i, q) ≠ (0, first) := fun h => by
      have := congrArg Prod.fst h
      dsimp only at this
      omega
    change (1 + i, q) ∈ (0, first) :: sampleFrom far first 1 candidates ↔ _ ∧
      far (lastSample first ((0, first) :: sampleFrom far first 1 candidates) (1 + i)) q = true
    rw [lastSample_cons (by omega), List.mem_cons, or_iff_right hne]
    exact mem_sampleFrom_iff
  | false => exact mem_sampleFrom_iff

variable (far) in
/-- Takes a candidate, if there is one and it is far enough from the sample taken last. -/
def offer (taken : List A × A) (candidate : Option A) : List A × A :=
  match candidate with
  | some p => if far taken.2 p then (taken.1 ++ [p], p) else taken
  | none => taken

theorem foldl_offer (taken : List A × A) (i : Nat) (candidates : List (Option A)) :
    (candidates.foldl (offer far) taken).1 =
      taken.1 ++ (sampleFrom far taken.2 i candidates).map Prod.snd := by
  induction candidates generalizing taken i with
  | nil => simp [sampleFrom]
  | cons candidate rest ih =>
    rw [List.foldl_cons, ih _ (i + 1)]
    cases candidate with
    | none => rfl
    | some p =>
      rw [offer, sampleFrom]
      split
      · simp
      · rfl

end

/-! ## 2. Arrows -/

/-- The vertex of a stroke that stays inside the clip region. -/
def Stroke.inside? {V : Type} : Stroke V → Option V
  | .goOn v => some v
  | _ => none

variable {W N V : Type} [Arithmetic N]

theorem Region.inside?_strokeTo (r : Region N) (mark : Point N → V) (breaks : Bool)
    (p q : Point N) :
    (r.strokeTo mark breaks p q).inside? =
      if !breaks && (r.contains p && r.contains q) then some (mark q) else none := by
  unfold strokeTo
  cases breaks with
  | true => rfl
  | false =>
    rw [if_neg Bool.false_ne_true, Bool.not_false, Bool.true_and]
    split
    · rfl
    · split
      · rfl
      · split <;> rfl

namespace Trace

variable {t : Trace W N} {r : Region N} {p : Point N} (settings : BuildSettings N)

/-- The arrows, and the pixel of the last one or of the first point. -/
def taken (t : Trace W N) : List (Point N) × Point N := (t.arrows.toList, t.lastArrow)

omit [Arithmetic N] in
theorem SameArrows.taken_eq {u : Trace W N} (h : SameArrows t u) : t.taken = u.taken := by
  rw [taken, taken, h.arrows, h.lastArrow]

/-- Whether a point is far enough from the last arrow. -/
def farFor (p q : Point N) : Bool := p.furtherThan q settings.arrowDistance

theorem advance_taken (v : Vertex N) :
    (t.advance settings v).taken = offer (farFor settings) t.taken (some v.point) := by
  unfold advance offer farFor taken
  dsimp only
  split
  · rw [Array.toList_push]
  · rfl

theorem extend_taken (hclipper : t.clipper.StandsAt r p) (q : Point N) (color : Color) :
    (t.extend settings ⟨q, color⟩).taken =
      offer (farFor settings) t.taken (r.strokeTo id false p q).inside? := by
  rw [Region.inside?_strokeTo, Bool.not_false, Bool.true_and]
  have hmoved (c : LineClipper N) : ({ t with clipper := c } : Trace W N).taken = t.taken := rfl
  unfold extend
  dsimp only
  rcases hclipper.next_cases q with ⟨hresult, hboth⟩ | ⟨hresult, hboth, -⟩ | ⟨hresult, hboth, -⟩
  · -- Only a way that stays inside offers its point.
    rw [hresult, hboth, if_pos rfl, ← hmoved (t.clipper.next q).2]
    exact advance_taken settings ⟨q, color⟩
  · rw [hresult, hboth, if_neg Bool.false_ne_true]
    exact (SameArrows.flush _).taken_eq
  · rw [hresult, hboth, if_neg Bool.false_ne_true]
    exact (SameArrows.cross _ _ _ _).taken_eq

variable (t) in
@[simp] theorem extend_bucket_arrows (v : Vertex N) :
    (t.extend settings v).bucket.arrows = t.bucket.arrows := by
  unfold extend
  dsimp only
  split
  · exact (SameArrows.flush _).bucket
  · exact (SameArrows.cross _ _ _ _).bucket
  · obtain ⟨arrows, lastArrow, hadvance⟩ :=
      advance_eq { t with clipper := (t.clipper.next v.point).2 } settings v
    rw [hadvance]

variable [Arithmetic W] [Resolution W N] {position : MapPosition W} {starts : List Nat} {i : Nat}
  {last : Point W}

omit [Resolution W N] in
variable (t) in
@[simp] theorem step_bucket_arrows (i : Nat) (p : Point W) (pixel : Pixel N) (color : Color) :
    (t.step settings i p pixel color).bucket.arrows = t.bucket.arrows := by
  unfold step
  dsimp only
  split
  · exact LineBucket.addLine_arrows _ _
  · rw [extend_bucket_arrows]

variable (t) in
theorem follow_bucket_arrows (position : MapPosition W) (i : Nat)
    (points : List (Point W × Color)) :
    (follow settings position i points t).bucket.arrows = t.bucket.arrows := by
  induction points generalizing i t with
  | nil => rfl
  | cons p rest ih => rw [follow, ih, step_bucket_arrows]

theorem step_taken (hclipper : t.clipper.StandsAt r (position.pixel last).point)
    (hstarts : starts.Pairwise (· < ·))
    (hcourse : t.course = ((position.pixel last : Pixel N).flip, last.x, nextStarts starts i))
    (p : Point W) (color : Color) :
    (t.step settings i p (position.pixel p) color).clipper.StandsAt r (position.pixel p).point ∧
      (t.step settings i p (position.pixel p) color).taken =
        offer (farFor settings) t.taken (r.strokeTo id (position.breaks N starts i last p)
          (position.pixel last).point (position.pixel p).point).inside? := by
  obtain ⟨flip, lastX, boundaries, hstep⟩ := step_eq settings hstarts hcourse p color
  rw [hstep]
  cases hbreaks : position.breaks N starts i last p with
  | true => exact ⟨hclipper.start _, rfl⟩
  | false =>
    rw [if_neg Bool.false_ne_true]
    refine ⟨?_, extend_taken settings (t := { t with flip, lastX, boundaries }) hclipper _ color⟩
    rw [extend_clipper]
    exact hclipper.next _

theorem follow_taken (hclipper : t.clipper.StandsAt r (position.pixel last).point)
    (hstarts : starts.Pairwise (· < ·))
    (hcourse : t.course = ((position.pixel last : Pixel N).flip, last.x, nextStarts starts i))
    (points : List (Point W × Color)) :
    (follow settings position i points t).taken =
      ((r.strokesFrom (fun _ v => v.point) position starts i last points).map
        Stroke.inside?).foldl (offer (farFor settings)) t.taken := by
  induction points generalizing t i last with
  | nil => rfl
  | cons point rest ih =>
    obtain ⟨p, color⟩ := point
    obtain ⟨hclipper', htaken⟩ := step_taken settings hclipper hstarts hcourse p color
    have hcourse' := step_course_next settings hstarts hcourse p color
    have hrest := ih hclipper' hcourse'
    rw [htaken] at hrest
    exact hrest

theorem arrows_follow_start (position : MapPosition W) (hstarts : starts.Pairwise (· < ·))
    (p : Point W) (color : Color) (rest : List (Point W × Color)) :
    (follow settings position 1 rest (start settings (nextStarts starts 1) p (position.pixel p)
      color)).arrows.toList =
      (samplesAfter (farFor settings)
        ((Region.centered settings.clipExtent).contains (position.pixel p).point)
        (position.pixel p).point (((Region.centered settings.clipExtent).strokesFrom
          (fun _ v => v.point) position starts 1 p rest).map Stroke.inside?)).map Prod.snd := by
  have hclipper : ((LineClipper.centered settings.clipExtent).start
      (position.pixel p).point).StandsAt (.centered settings.clipExtent)
        (position.pixel p).point := ⟨rfl, rfl, rfl⟩
  have hfollow := follow_taken settings (t := start settings (nextStarts starts 1) p
    (position.pixel p) color) hclipper hstarts rfl rest
  -- The first point counts as the last arrow, but is one only if it is inside.
  have hstart : (start settings (nextStarts starts 1) p (position.pixel p) color).taken =
      (if (Region.centered settings.clipExtent).contains (position.pixel p).point then
        [(position.pixel p).point] else [], (position.pixel p).point) := by
    unfold start taken
    dsimp only
    rw [hclipper.isInside_eq]
    split <;> rfl
  calc (follow settings position 1 rest (start settings (nextStarts starts 1) p
        (position.pixel p) color)).arrows.toList
    _ = (follow settings position 1 rest (start settings (nextStarts starts 1) p
        (position.pixel p) color)).taken.1 := rfl
    _ = _ := by
      rw [hfollow, hstart, foldl_offer _ 1, samplesAfter, List.map_append]
      split <;> rfl

end Trace

end TourMap
