import TourMap.Config.Json
import TourMap.Proofs.Json.Reader

/-!
# Config.Json: every length of a configuration is a number

What a text describes may be out of range, or infinite where a number in it is too great for
pixels, but it is always a number. A range does not change that.
-/

namespace TourMap.TrackConfig

open Json Binary

/-- Whether all lengths of a configuration are numbers. -/
structure Measured (c : TrackConfig Single) : Prop where
  lineWidth : c.lineWidth ≠ .nan
  verticalOffset : ∀ x ∈ c.verticalOffset, x ≠ .nan
  arrowDistance : c.arrowDistance ≠ .nan
  minDistance : c.minDistance ≠ .nan
  clipExtent : c.clipExtent ≠ .nan

/-- Whether setting a field keeps all lengths numbers. -/
def KeepsMeasured (set : TrackConfig Single → TrackConfig Single) : Prop :=
  ∀ c, c.Measured → (set c).Measured

theorem measured_default : (default : TrackConfig Single).Measured where
  lineWidth := ofInt_ne_nan 4
  verticalOffset _ h := by cases h
  arrowDistance := ofInt_ne_nan 60
  minDistance := ofInt_ne_nan 3
  clipExtent := ofInt_ne_nan 2048

/-! ## 1. Fields -/

theorem gives_takeAnyNumber : Gives takeAnyNumber Number.IsNumber := by
  refine .after fun c => ?_
  split
  · exact .after fun _ => gives_takeNumber true
  · split
    · exact gives_takeNumber false
    · exact gives_mistyped

theorem gives_takePixels : Gives takePixels (· ≠ .nan) := by
  unfold takePixels
  exact gives_takeAnyNumber.bind fun n hn => .pure (hn single)

theorem gives_takePixels? : Gives takePixels? fun offset => ∀ x ∈ offset, x ≠ .nan := by
  refine .after fun c => ?_
  split
  · exact .after fun _ => .after fun _ => .pure (by simp)
  · exact gives_takePixels.bind fun x hx => .pure (by simpa using hx)

/-- The reader of a field, if what it reads is fit for the field. -/
theorem gives_field {α : Type} {P : α → Prop} {r : Reader α}
    {set : α → TrackConfig Single → TrackConfig Single} (hr : Gives r P)
    (hset : ∀ x, P x → KeepsMeasured (set x)) :
    Gives (do let x ← r; return set x) KeepsMeasured :=
  hr.bind fun x hx => .pure (hset x hx)

theorem gives_fields {field : String × FieldReader} (h : field ∈ fields) :
    Gives field.2 KeepsMeasured := by
  -- Each member sets its own field and leaves the others alone.
  simp only [fields, List.mem_cons, List.not_mem_nil, or_false] at h
  rcases h with rfl | rfl | rfl | rfl | rfl | rfl | rfl | rfl | rfl | rfl | rfl
  · exact gives_field (.any _) fun _ _ _ h => { h with }
  · exact gives_field (.any _) fun _ _ _ h => { h with }
  · exact gives_field gives_takePixels fun _ hx _ h => { h with lineWidth := hx }
  · exact gives_field (.any _) fun _ _ _ h => { h with }
  · exact gives_field (.any _) fun _ _ _ h => { h with }
  · exact gives_field gives_takePixels? fun _ hx _ h => { h with verticalOffset := hx }
  · exact gives_field (.any _) fun _ _ _ h => { h with }
  · exact gives_field gives_takePixels fun _ hx _ h => { h with arrowDistance := hx }
  · exact gives_field gives_takePixels fun _ hx _ h => { h with minDistance := hx }
  · exact gives_field gives_takePixels fun _ hx _ h => { h with clipExtent := hx }
  · exact gives_field (.any _) fun _ _ _ h => { h with }

theorem mem_fields_of_lookup {key : String} {field : FieldReader}
    (h : fields.lookup key = some field) : (key, field) ∈ fields := by
  obtain ⟨before, after, heq, -⟩ := List.lookup_eq_some_iff.1 h
  rw [heq]
  exact List.mem_append_right _ (List.mem_cons_self ..)

/-! ## 2. Configurations -/

theorem gives_takeElements (first : Bool) {rest : List (String × FieldReader)} (h : rest ⊆ fields)
    {c : TrackConfig Single} (hc : c.Measured) : Gives (takeElements first rest c) Measured := by
  induction rest generalizing first c with
  | nil => exact .pure hc
  | cons field rest ih =>
    obtain ⟨hfield, hrest⟩ := List.cons_subset.1 h
    refine .after fun another => ?_
    split
    · exact (gives_fields hfield).bind fun set hset => ih false hrest (hset c hc)
    · exact .pure hc

theorem gives_takeMembers (rounds : Nat) (first : Bool) (seen : List String)
    {c : TrackConfig Single} (hc : c.Measured) :
    Gives (takeMembers rounds first seen c) Measured := by
  induction rounds generalizing first seen c with
  | zero => exact .throw _
  | succ n ih =>
    refine .after fun another => ?_
    split
    · refine .after fun _ => .after fun key => ?_
      split
      · exact .after fun _ => .after fun _ => ih false seen hc
      · rename_i field hfield
        have hmember : Gives (do
            takeColon
            let set ← field
            takeMembers n false (key :: seen) (set c)) Measured :=
          .after fun _ => (gives_fields (mem_fields_of_lookup hfield)).bind fun set hset =>
            ih false (key :: seen) (hset c hc)
        -- A field that was set before is a fault, which returns nothing.
        dsimp only
        split
        · exact .after fun _ => hmember
        · exact hmember
    · exact .pure hc

theorem gives_takeConfig : Gives takeConfig Measured := by
  refine .after fun c => ?_
  split
  · exact .after fun _ => (gives_takeElements true (List.Subset.refl _) measured_default).bind
      fun c hc => .after fun _ => .pure hc
  · exact .after fun _ => .after fun text => (gives_takeMembers _ true [] measured_default).bind
      fun c hc => .after fun _ => .pure hc
  · exact gives_mistyped

theorem measured_of_ofJson {octets : List UInt8} {c : TrackConfig Single}
    (h : ofJson octets = .ok c) : c.Measured := by
  have hgives : Gives (do let c ← takeConfig; endText; return c) Measured :=
    gives_takeConfig.bind fun c hc => .after fun _ => .pure hc
  cases hread : (do let c ← takeConfig; endText; return c : Reader _) (Json.ofOctets octets) with
  | error fault =>
    rw [ofJson, hread] at h
    cases h
  | ok p =>
    rw [ofJson, hread] at h
    cases h
    exact hgives _ _ _ hread

theorem max_ne_nan {x y : Single} (hx : x ≠ .nan) (hy : y ≠ .nan) : Arithmetic.max x y ≠ .nan := by
  unfold Arithmetic.max
  split <;> assumption

theorem clamp_ne_nan {x lo hi : Single} (hx : x ≠ .nan) (hlo : lo ≠ .nan) (hhi : hi ≠ .nan) :
    Arithmetic.clamp x lo hi ≠ .nan := by
  unfold Arithmetic.clamp
  repeat' split
  all_goals assumption

theorem Measured.sanitized {c : TrackConfig Single} (h : c.Measured) : c.sanitized.Measured where
  lineWidth := max_ne_nan h.lineWidth (ofInt_ne_nan 0)
  verticalOffset := h.verticalOffset
  arrowDistance := max_ne_nan h.arrowDistance (ofInt_ne_nan 0)
  minDistance := max_ne_nan h.minDistance (ofInt_ne_nan 0)
  clipExtent := clamp_ne_nan h.clipExtent (ofInt_ne_nan 1) (ofInt_ne_nan 4095)

/-- Every length of a configuration that is read from a file is a number. -/
theorem measured_of_ofFile {content : Option (List UInt8)} {c : TrackConfig Single}
    (h : ofFile content = .ok c) : c.Measured := by
  cases content with
  | none => cases h
  | some octets =>
    unfold ofFile at h
    simp only at h
    split at h
    · rename_i hread
      cases h
      exact (measured_of_ofJson hread).sanitized
    · cases h

end TourMap.TrackConfig
