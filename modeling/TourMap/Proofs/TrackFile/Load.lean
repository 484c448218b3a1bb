import Mathlib.Data.List.Nodup
import TourMap.Proofs.TrackFile.Pool
import TourMap.TrackFile.Load

/-!
# Load: the tours do not depend on which file is read first

The files are numbered before any of them is read, and all the numbers are different. So in whatever
order the files end, they are put back into one and the same order, and a file that cannot be read
leaves no trace among the tours.
-/

namespace TourMap

/-- What came of files, numbered in the order of the files. -/
def FileTours.ofOutcomes (outcomes : List (Option (List Places))) : List FileTours :=
  outcomes.zipIdx.map fun (tours, file) => ⟨file, tours⟩

/-- The tours of the files that could be read, file by file, but for those without points. -/
def toursOf (outcomes : List (Option (List Places))) : List Places :=
  (outcomes.filterMap id).flatten.filter (!·.isEmpty)

theorem toursOf_append (first second : List (Option (List Places))) :
    toursOf (first ++ second) = toursOf first ++ toursOf second := by
  simp only [toursOf, List.filterMap_append, List.flatten_append, List.filter_append]

theorem toursOf_cons_none (outcomes : List (Option (List Places))) :
    toursOf (none :: outcomes) = toursOf outcomes := rfl

namespace FileTours

variable (outcomes : List (Option (List Places)))

theorem map_tours_ofOutcomes : (ofOutcomes outcomes).map (·.tours) = outcomes := by
  rw [ofOutcomes, List.map_map]
  exact List.zipIdx_map_fst 0 outcomes

theorem map_file_ofOutcomes :
    (ofOutcomes outcomes).map (·.file) = List.range' 0 outcomes.length := by
  rw [ofOutcomes, List.map_map]
  exact List.zipIdx_map_snd 0 outcomes

theorem pairwise_ofOutcomes : (ofOutcomes outcomes).Pairwise fun a b => a.file < b.file := by
  apply List.pairwise_map.1
  rw [map_file_ofOutcomes]
  exact List.pairwise_lt_range'

/-! ## 1. Order -/

theorem mergeSort_eq {files sorted : List FileTours} (h : files.Perm sorted)
    (hsorted : sorted.Pairwise fun a b => a.file < b.file) :
    files.mergeSort (fun a b => a.file ≤ b.file) = sorted := by
  -- Both are sorted, and no two files have the same number.
  have hperm := (List.mergeSort_perm files fun a b => a.file ≤ b.file).trans h
  have hpairwise : (files.mergeSort fun a b => a.file ≤ b.file).Pairwise
      fun a b => a.file ≤ b.file := by
    refine (List.pairwise_mergeSort ?_ ?_ files).imp of_decide_eq_true
    · intro a b c hab hbc
      simp only [decide_eq_true_eq] at *
      omega
    · intro a b
      simp only [Bool.or_eq_true, decide_eq_true_eq]
      omega
  have hnodup : (sorted.map (·.file)).Nodup :=
    (List.pairwise_map.2 hsorted).imp Nat.ne_of_lt
  apply hperm.eq_of_pairwise _ hpairwise (hsorted.imp Nat.le_of_lt)
  intro a b ha hb hab hba
  exact List.inj_on_of_nodup_map hnodup (hperm.subset ha) hb (Nat.le_antisymm hab hba)

theorem flatMap_filter_isSome (files : List FileTours) :
    ((files.filter (·.tours.isSome)).flatMap fun o => o.tours.getD []) =
      ((files.map (·.tours)).filterMap id).flatten := by
  induction files with
  | nil => rfl
  | cons o rest ih =>
    obtain ⟨file, tours⟩ := o
    cases tours with
    | none => exact ih
    | some tours => exact congrArg (tours ++ ·) ih

end FileTours

theorem assemble_eq {outcomes : List (Option (List Places))} {ended : List FileTours}
    (h : ended.Perm (FileTours.ofOutcomes outcomes)) : assemble ended = toursOf outcomes := by
  have hsort := FileTours.mergeSort_eq (h.filter (·.tours.isSome))
    ((FileTours.pairwise_ofOutcomes outcomes).filter _)
  unfold assemble toursOf
  dsimp only
  rw [hsort, FileTours.flatMap_filter_isSome, FileTours.map_tours_ofOutcomes]

/-! ## 2. Loading -/

/-- The tours of a file, if it can be read. -/
def TrackFormat.read? (format : TrackFormat) (content : Option (List UInt8)) :
    Option (List Places) :=
  (format.read content).toOption

theorem readAll_eq (format : TrackFormat) (files : List (Option (List UInt8))) :
    readAll format files = FileTours.ofOutcomes (files.map format.read?) := by
  rw [readAll, FileTours.ofOutcomes, List.zipIdx_map, List.map_map]
  rfl

theorem loadTours_eq (format : TrackFormat) (parallel : Nat) (pick : Nat → Nat)
    (files : List (Option (List UInt8))) :
    loadTours format parallel pick files =
      (toursOf (files.map format.read?),
        files.countP fun content => (format.read? content).isNone) := by
  have hperm := completions_perm parallel pick (readAll format files)
  rw [readAll_eq] at hperm
  have hcount (outcomes : List (Option (List Places))) :
      (FileTours.ofOutcomes outcomes).countP (·.tours.isNone) = outcomes.countP (·.isNone) := by
    conv_rhs => rw [← FileTours.map_tours_ofOutcomes outcomes, List.countP_map]
    rfl
  unfold loadTours
  dsimp only
  rw [readAll_eq, assemble_eq hperm, hperm.countP_eq, hcount, List.countP_map]
  rfl

/-- Whatever came of files, and in whatever order they ended: the tours put together are those of the
files that could be read, in the order of the files, each once and none without points. With any
limit, none at all included, and whatever file is picked to end next, every file ends once. So these
are the tours that are loaded, and a file that cannot be read might as well not be there. -/
theorem loading_is_independent_of_order (format : TrackFormat) :
    (∀ (outcomes : List (Option (List Places))) (ended : List FileTours),
      ended.Perm (FileTours.ofOutcomes outcomes) → assemble ended = toursOf outcomes) ∧
    (∀ (outcomes : List (Option (List Places))) (parallel : Nat) (pick : Nat → Nat),
      (completions parallel pick (FileTours.ofOutcomes outcomes)).Perm
        (FileTours.ofOutcomes outcomes)) ∧
    (∀ (files : List (Option (List UInt8))) (parallel : Nat) (pick : Nat → Nat),
      loadTours format parallel pick files =
        (toursOf (files.map format.read?),
          files.countP fun content => (format.read? content).isNone)) ∧
    (∀ (before after : List (Option (List UInt8))) (content : Option (List UInt8))
      (parallel parallel' : Nat) (pick pick' : Nat → Nat), format.read? content = none →
        (loadTours format parallel pick (before ++ content :: after)).1 =
          (loadTours format parallel' pick' (before ++ after)).1) := by
  refine ⟨fun _ _ => assemble_eq, fun _ _ _ => completions_perm _ _ _,
    fun files parallel pick => loadTours_eq format parallel pick files, ?_⟩
  intro before after content parallel parallel' pick pick' hnone
  rw [loadTours_eq, loadTours_eq, List.map_append, List.map_append, List.map_cons, hnone,
    toursOf_append, toursOf_cons_none, toursOf_append]

/-- A tour that stays at one place. -/
def stay : Places := [⟨.zero false, .zero false⟩]

/-- Three files end in the order last, first, middle; the first one cannot be read, and one of the
tours has no points. -/
theorem loading_is_independent_of_order_of_threeFiles :
    [⟨2, some [stay, []]⟩, ⟨0, none⟩, ⟨1, some [stay ++ stay]⟩].Perm
        (FileTours.ofOutcomes [none, some [stay ++ stay], some [stay, []]]) ∧
      assemble [⟨2, some [stay, []]⟩, ⟨0, none⟩, ⟨1, some [stay ++ stay]⟩] =
        [stay ++ stay, stay] ∧
      TrackFormat.gpx.read? none = none ∧
      (loadTours .gpx 0 id ([] ++ none :: [])).1 = (loadTours .gpx 1 id ([] ++ [])).1 := by
  have hperm : [⟨2, some [stay, []]⟩, ⟨0, none⟩, ⟨1, some [stay ++ stay]⟩].Perm
      (FileTours.ofOutcomes [none, some [stay ++ stay], some [stay, []]]) :=
    (List.Perm.swap _ _ _).trans (.cons _ (.swap _ _ _))
  obtain ⟨hassemble, -, -, hnone⟩ := loading_is_independent_of_order .gpx
  exact ⟨hperm, hassemble _ _ hperm, rfl, hnone [] [] none 0 1 id id rfl⟩

end TourMap
