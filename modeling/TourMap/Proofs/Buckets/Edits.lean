import Mathlib.Data.List.Chain
import Mathlib.Data.List.Induction
import TourMap.Proofs.Buckets

/-!
# Edits: what any sequence of operations leaves in the buckets

The buffers of a bucket are addressed by running offsets, and two readers cut them: `lines` and
whoever draws the compiled bucket. Buckets are edited in any order (`Edit`). After every edit the line
bucket holds the lines that were added since its geometry was last thrown away, so both readers cut
within bounds and get these lines back. That there is one bucket at most is not built in here: the
edits act in the same way on a list of any number of buckets.
-/

namespace TourMap

variable {N : Type}

namespace LineBucket

variable {α : Type} {b : LineBucket N} {lines : List (Array (Vertex N))} {start : Nat}

/-! ## 1. Cutting within bounds -/

/-- A buffer cut at the given ends, the first piece from `start` on. There is none if a piece is not
within the buffer. -/
def cut? (buffer : Array α) : (start : Nat) → (ends : List Nat) → Option (List (Array α))
  | _, [] => some []
  | start, stop :: rest =>
    if start ≤ stop ∧ stop ≤ buffer.size then
      (cut? buffer stop rest).map (buffer.extract start stop :: ·)
    else none

/-- A buffer of what a function makes of the vertices is cut into the lines. -/
theorem cut?_endsFrom {buffer : Array α} {f : Vertex N → α} (hstart : start ≤ buffer.size)
    (hbuffer : buffer.toList.drop start = lines.flatMap fun line => line.toList.map f) :
    cut? buffer start (endsFrom start lines) = some (lines.map (·.map f)) := by
  induction lines generalizing start with
  | nil => rfl
  | cons line rest ih =>
    rw [List.flatMap_cons] at hbuffer
    have hfits : start + line.size ≤ buffer.size := by
      have hlength := congrArg List.length hbuffer
      simp only [List.length_drop, Array.length_toList, List.length_append, List.length_map]
        at hlength
      omega
    have hpiece : buffer.extract start (start + line.size) = line.map f := by
      apply Array.toList_inj.1
      rw [Array.toList_extract, List.extract_eq_take_drop, hbuffer, Nat.add_sub_cancel_left,
        List.take_left' (by simp), Array.toList_map]
    have hrest : buffer.toList.drop (start + line.size) =
        rest.flatMap fun line => line.toList.map f := by
      rw [← List.drop_drop, hbuffer, List.drop_left' (by simp)]
    rw [endsFrom, cut?, if_pos ⟨Nat.le_add_right _ _, hfits⟩, ih hfits hrest, hpiece]
    rfl

theorem endsFrom_increasing (start : Nat) (hlines : ∀ line ∈ lines, 2 ≤ line.size) :
    (start :: endsFrom start lines).Pairwise (· < ·) := by
  rw [← List.isChain_iff_pairwise]
  induction lines generalizing start with
  | nil => exact .singleton start
  | cons line rest ih =>
    have hline := hlines line List.mem_cons_self
    exact .cons_cons (by omega) (ih _ fun l hl => hlines l (List.mem_cons_of_mem _ hl))

theorem getLast?_endsFrom (start : Nat) (lines : List (Array (Vertex N))) :
    (start :: endsFrom start lines).getLast? =
      some (start + (lines.flatMap fun line => line.toList.map (·.point)).length) := by
  induction lines generalizing start with
  | nil => rfl
  | cons line rest ih =>
    rw [endsFrom, List.getLast?_cons_cons, ih]
    simp [Nat.add_assoc]

/-! ## 2. Buckets whose readers agree -/

variable [Arithmetic N]

/-- The color in which a compiled bucket shows a vertex. -/
def shownColor (style : LineStyle N) (v : Vertex N) : Color :=
  match style.colorMode with
  | .solid => style.color
  | .gradient => v.color

/-- What readers find in a bucket: exactly these lines, all cuts within bounds. -/
structure Stores (b : LineBucket N) (lines : List (Array (Vertex N))) : Prop where
  lines_eq : b.lines = lines
  points : cut? b.vertices 0 b.lineEnds.toList = some (lines.map (·.map (·.point)))
  colors : cut? b.colors 0 b.lineEnds.toList = some (lines.map (·.map (·.color)))
  increasing : (0 :: b.lineEnds.toList).Pairwise (· < ·)
  last : (0 :: b.lineEnds.toList).getLast? = some b.vertexCount
  aligned : b.colors.size = b.vertices.size
  compiledPoints (hcount : b.vertexCount < UInt32.size) :
    cut? b.compile.positions 0 (b.compile.lineEnds.toList.map UInt32.toNat) =
      some (lines.map (·.map fun v => compilePoint v.point))
  compiledColors (hcount : b.vertexCount < UInt32.size) :
    cut? b.compile.colors 0 (b.compile.lineEnds.toList.map UInt32.toNat) =
      some (lines.map (·.map (shownColor b.style)))

/-- Offsets that 32 bits can hold are compiled to themselves. -/
theorem Holds.compiled_lineEnds (h : b.Holds lines) (hlines : ∀ line ∈ lines, 2 ≤ line.size)
    (hcount : b.vertexCount < UInt32.size) :
    b.compile.lineEnds.toList.map UInt32.toNat = endsFrom 0 lines := by
  -- The last offset is the largest one.
  have hle : ∀ stop ∈ endsFrom 0 lines, stop ≤ b.vertexCount := by
    intro stop hstop
    have hlast := getLast?_endsFrom 0 lines
    rw [← h.vertices, Array.length_toList, Nat.zero_add, ← vertexCount] at hlast
    obtain ⟨front, hfront⟩ := List.getLast?_eq_some_iff.1 hlast
    have hincreasing := endsFrom_increasing 0 hlines
    have hmem : stop ∈ 0 :: endsFrom 0 lines := List.mem_cons_of_mem _ hstop
    rw [hfront] at hincreasing hmem
    obtain hmem | hmem := List.mem_append.1 hmem
    · exact Nat.le_of_lt ((List.pairwise_append.1 hincreasing).2.2 stop hmem _ (by simp))
    · exact Nat.le_of_eq (List.mem_singleton.1 hmem)
  simp only [compile, Array.toList_map, List.map_map, h.lineEnds]
  refine (List.map_congr_left fun stop hstop => ?_).trans (List.map_id _)
  exact UInt32.toNat_ofNat_of_lt' (Nat.lt_of_le_of_lt (hle stop hstop) hcount)

omit [Arithmetic N] in
theorem Holds.colors_size (h : b.Holds lines) : b.colors.size = b.vertices.size := by
  rw [← Array.length_toList, ← Array.length_toList, h.vertices, h.colors]
  simp [List.length_flatMap]

theorem Holds.compiled_colors (h : b.Holds lines) :
    b.compile.colors.toList =
      lines.flatMap fun line => line.toList.map (shownColor b.style) := by
  cases hmode : b.style.colorMode with
  | gradient =>
    have hshown : shownColor b.style = (·.color) := by
      funext v
      rw [shownColor, hmode]
    rw [hshown, ← h.colors]
    simp only [compile, hmode]
  | solid =>
    have hshown : shownColor b.style = fun _ => b.style.color := by
      funext v
      rw [shownColor, hmode]
    have hsize : b.colors.size = (lines.flatMap fun line => line.toList.map (·.color)).length := by
      rw [← h.colors, Array.length_toList]
    simp only [compile, hmode, hshown, hsize, Array.toList_replicate]
    -- A list of one color is known by its length.
    symm
    rw [List.eq_replicate_iff]
    exact ⟨by simp [List.length_flatMap], by simp +contextual [List.mem_flatMap]⟩

theorem Holds.stores (h : b.Holds lines) (hlines : ∀ line ∈ lines, 2 ≤ line.size) :
    b.Stores lines where
  lines_eq := h.lines_eq
  points := by
    rw [h.lineEnds]
    exact cut?_endsFrom (Nat.zero_le _) h.vertices
  colors := by
    rw [h.lineEnds]
    exact cut?_endsFrom (Nat.zero_le _) h.colors
  increasing := by
    rw [h.lineEnds]
    exact endsFrom_increasing 0 hlines
  last := by
    rw [h.lineEnds, getLast?_endsFrom, ← h.vertices, Nat.zero_add]
    rfl
  aligned := h.colors_size
  compiledPoints hcount := by
    rw [h.compiled_lineEnds hlines hcount]
    refine cut?_endsFrom (Nat.zero_le _) ?_
    simp only [compile, List.drop_zero, Array.toList_map, h.vertices, List.map_flatMap,
      List.map_map]
    rfl
  compiledColors hcount := by
    rw [h.compiled_lineEnds hlines hcount]
    exact cut?_endsFrom (Nat.zero_le _) h.compiled_colors

end LineBucket

/-! ## 3. Edits -/

/-- An operation on buckets. -/
inductive Edit (N : Type) where
  /-- Ask for the line bucket, so that there is one. -/
  | touch
  | reset
  | addLine (line : Array (Vertex N))
  | setArrows (arrows : Array (Point N))
  | setStyle (style : LineStyle N)
  | clear

namespace Edit

/-- Whether an edit throws the lines away. -/
def erases : Edit N → Bool
  | reset | clear => true
  | _ => false

/-- The line that an edit adds. -/
def line? : Edit N → Option (Array (Vertex N))
  | addLine line => if line.size < 2 then none else some line
  | touch | reset | setArrows _ | setStyle _ | clear => none

/-- The lines that were added since lines were last thrown away. -/
def drawn (edits : List (Edit N)) : List (Array (Vertex N)) :=
  (edits.reverse.takeWhile (!·.erases)).reverse.filterMap line?

theorem drawn_concat (edits : List (Edit N)) (e : Edit N) :
    drawn (edits ++ [e]) = if e.erases then [] else drawn edits ++ e.line?.toList := by
  rw [drawn, List.reverse_append, List.reverse_singleton, List.singleton_append,
    List.takeWhile_cons]
  cases e.erases with
  | true => rfl
  | false =>
    rw [Bool.not_false, if_pos rfl, if_neg Bool.false_ne_true, List.reverse_cons,
      List.filterMap_append, drawn]
    cases hline : e.line? <;> simp [hline]

theorem le_size_of_mem_drawn {edits : List (Edit N)} {line : Array (Vertex N)}
    (h : line ∈ drawn edits) : 2 ≤ line.size := by
  obtain ⟨e, -, he⟩ := List.mem_filterMap.1 h
  cases e with
  | addLine added =>
    rw [line?] at he
    split at he
    · cases he
    · obtain rfl := Option.some.inj he
      omega
  | _ => cases he

variable [Arithmetic N]

def apply (b : RenderBuckets N) : Edit N → RenderBuckets N
  | touch => b.modifyLines id
  | reset => b.modifyLines .reset
  | addLine line => b.modifyLines (·.addLine line)
  | setArrows arrows => b.modifyLines (·.setArrows arrows)
  | setStyle style => b.setStyle style
  | clear => .empty

/-- Changes the first of any number of buckets, after one was put into an empty list. -/
def modifyFirst (buckets : List (LineBucket N)) (f : LineBucket N → LineBucket N) :
    List (LineBucket N) :=
  (if buckets.isEmpty then buckets ++ [.new .default] else buckets).modifyHead f

/-- An edit of any number of buckets. -/
def applyList (buckets : List (LineBucket N)) : Edit N → List (LineBucket N)
  | touch => modifyFirst buckets id
  | reset => modifyFirst buckets .reset
  | addLine line => modifyFirst buckets (·.addLine line)
  | setArrows arrows => modifyFirst buckets (·.setArrows arrows)
  | setStyle style => buckets.map fun b => { b with style }
  | clear => []

theorem applyList_toList (b : RenderBuckets N) (e : Edit N) :
    applyList b.toList e = (apply b e).toList := by
  obtain ⟨_ | bucket⟩ := b <;> cases e <;> rfl

theorem foldl_applyList (edits : List (Edit N)) (b : RenderBuckets N) :
    edits.foldl applyList b.toList = (edits.foldl apply b).toList := by
  induction edits generalizing b with
  | nil => rfl
  | cons e rest ih => rw [List.foldl_cons, applyList_toList, ih, List.foldl_cons]

end Edit

namespace RenderBuckets

variable [Arithmetic N] {b : RenderBuckets N} {lines : List (Array (Vertex N))}

omit [Arithmetic N] in
theorem Holds.setStyle (h : b.Holds lines) (style : LineStyle N) :
    (b.setStyle style).Holds lines := by
  obtain ⟨_ | bucket⟩ := b
  · exact h
  · exact ⟨h.vertices, h.colors, h.lineEnds⟩

theorem Holds.lineBucketOrNew (h : b.Holds lines) : b.lineBucketOrNew.Holds lines := by
  obtain ⟨_ | bucket⟩ := b
  · obtain rfl : lines = [] := h
    exact LineBucket.holds_new _
  · exact h

/-- One edit. -/
theorem Holds.apply (h : b.Holds lines) (e : Edit N) :
    (e.apply b).Holds (if e.erases then [] else lines ++ e.line?.toList) := by
  -- What holds the same lines as before, after an edit that brings none.
  have hkeeps {c : RenderBuckets N} (hc : c.Holds lines) :
      c.Holds (lines ++ (none : Option (Array (Vertex N))).toList) := by
    rwa [Option.toList_none, List.append_nil]
  cases e with
  | reset => exact LineBucket.holds_new b.lineBucketOrNew.style
  | clear => rfl
  | addLine line =>
    have hadd := h.lineBucketOrNew.addLine line
    have hline : (Edit.addLine line).line?.toList = if line.size < 2 then [] else [line] := by
      rw [Edit.line?]
      split <;> rfl
    rwa [← hline] at hadd
  | touch => exact hkeeps h.lineBucketOrNew
  | setArrows arrows => exact hkeeps (h.lineBucketOrNew.setArrows arrows)
  | setStyle style => exact hkeeps (h.setStyle style)

/-- Any number of edits. -/
theorem holds_foldl_apply (edits : List (Edit N)) :
    (edits.foldl Edit.apply (.empty : RenderBuckets N)).Holds (Edit.drawn edits) := by
  induction edits using List.reverseRecOn with
  | nil => rfl
  | append_singleton edits e ih =>
    rw [List.foldl_concat, Edit.drawn_concat]
    exact ih.apply e

/-- Whatever was done to buckets that were empty at first, there is one of them at most. Its lines
are those of two vertices or more that were added since a reset or clearing, its offsets increase and
end at the number of vertices, and the compiled buffers are cut by their own offsets into the same
lines, each vertex in its own color or in that of a solid style. No cut leaves a buffer. -/
theorem edited_stores_what_was_drawn (edits : List (Edit N)) :
    (edits.foldl Edit.applyList []).length ≤ 1 ∧
      edits.foldl Edit.applyList [] =
        (edits.foldl Edit.apply (.empty : RenderBuckets N)).toList ∧
      (edits.foldl Edit.apply (.empty : RenderBuckets N)).lines = Edit.drawn edits ∧
      ∀ bucket ∈ (edits.foldl Edit.apply (.empty : RenderBuckets N)).toList,
        bucket.Stores (Edit.drawn edits) := by
  have hlist := Edit.foldl_applyList edits (.empty : RenderBuckets N)
  have hholds := holds_foldl_apply edits
  rw [show ([] : List (LineBucket N)) = (.empty : RenderBuckets N).toList from rfl]
  refine ⟨?_, hlist, hholds.lines_eq, ?_⟩
  · rw [hlist]
    exact Option.length_toList_le
  · intro bucket hbucket
    have hsome := Option.mem_toList.1 hbucket
    unfold Holds at hholds
    rw [hsome] at hholds
    exact hholds.stores fun line hline => Edit.le_size_of_mem_drawn hline

/-- A line that is thrown away, then one of three vertices, a single vertex and one of two vertices,
which the last style shows in one color. -/
def redrawn : List (Edit Single) :=
  let v (x : Int) : Vertex Single := ⟨⟨.ofInt x, .zero false⟩, .rgb 1 2 3⟩
  [.setArrows #[(v 4).point], .addLine #[v 0, v 1], .reset, .addLine #[v 0, v 1, v 2],
    .addLine #[v 5], .addLine #[v 10, v 20],
    .setStyle { LineStyle.default with colorMode := .solid, color := .rgb 255 0 0 }]

theorem edited_stores_what_was_drawn_at_redrawn :
    ∃ bucket ∈ (redrawn.foldl Edit.apply .empty).toList,
      bucket.lineEnds = #[3, 5] ∧
      LineBucket.cut? bucket.compile.colors 0 (bucket.compile.lineEnds.toList.map UInt32.toNat) =
        some [Array.replicate 3 (.rgb 255 0 0), Array.replicate 2 (.rgb 255 0 0)] := by
  have hrun : (redrawn.foldl Edit.apply .empty).toList.any
      (fun bucket => bucket.lineEnds = #[3, 5] ∧ bucket.vertexCount < UInt32.size ∧
        (Edit.drawn redrawn).map (·.map (LineBucket.shownColor bucket.style)) =
          [Array.replicate 3 (.rgb 255 0 0), Array.replicate 2 (.rgb 255 0 0)]) = true := by
    decide +kernel
  obtain ⟨bucket, hbucket, hfound⟩ := List.any_eq_true.1 hrun
  obtain ⟨hends, hcount, hcolors⟩ := of_decide_eq_true hfound
  have hstores := (edited_stores_what_was_drawn redrawn).2.2.2 bucket hbucket
  exact ⟨bucket, hbucket, hends, by rw [hstores.compiledColors hcount, hcolors]⟩

end RenderBuckets

end TourMap
