import TourMap.CommandLine.Options
import TourMap.Proofs.Config.Json

/-!
# Options: what an accepted command line says is in range

Where an option stands among the words does not matter: what holds of the values at first, and is
kept by every option of a level, holds of all that is read at that level. So the values of an
accepted command line are in their ranges, but for how far the map moves, which has no range.
-/

namespace TourMap.CommandLine

/-! ## 1. Levels -/

section

variable {σ : Type} {I : σ → Prop}

/-- Whether an option keeps a property of the values, whatever its own value is. -/
def ValueOption.Keeps (o : ValueOption σ) (I : σ → Prop) : Prop :=
  ∀ value s s', I s → o.set value s = .ok s' → I s'

/-- Whether the values have a property, and keep it when the option read last is taken over. -/
structure Reading.Keeps (r : Reading σ) (I : σ → Prop) : Prop where
  values : I r.values
  pending : ∀ o value, r.pending = some (o, value) → o.Keeps I

theorem exists_of_bind {α β : Type} {x : Except Refusal α} {f : α → Except Refusal β} {b : β}
    (h : (x >>= f) = .ok b) : ∃ a, x = .ok a ∧ f a = .ok b := by
  cases x with
  | error refusal => cases h
  | ok a => exact ⟨a, rfl, h⟩

namespace Reading.Keeps

variable {r r' : Reading σ} {o : ValueOption σ}

theorem new {values : σ} (h : I values) : (Reading.new values).Keeps I := ⟨h, nofun⟩

theorem accept (h : r.Keeps I) (ho : o.Keeps I) {value : String}
    (hr : r.accept o value = .ok r') : r'.Keeps I := by
  unfold Reading.accept at hr
  split at hr
  · cases hr
  · obtain ⟨values, hset, hr⟩ := exists_of_bind hr
    cases hr
    exact ⟨ho _ _ _ h.values hset, nofun⟩

theorem settle (h : r.Keeps I) (hr : r.settle = .ok r') : r'.Keeps I := by
  unfold Reading.settle at hr
  split at hr
  · cases hr
    exact h
  · cases hr
  · rename_i hpending
    exact h.accept (h.pending _ _ hpending) hr

theorem pend (h : r.Keeps I) (ho : o.Keeps I) (value : Option String) :
    ({ r with pending := some (o, value) } : Reading σ).Keeps I := by
  refine ⟨h.values, fun o' value' heq => ?_⟩
  obtain ⟨rfl, -⟩ := Prod.mk.inj (Option.some.inj heq)
  exact ho

theorem of_awaiting (h : r.Keeps I) (ho : r.awaiting = some o) : o.Keeps I := by
  unfold Reading.awaiting at ho
  split at ho
  · rename_i hpending
    cases ho
    exact h.pending _ _ hpending
  · cases ho

theorem begin (h : r.Keeps I) (ho : o.Keeps I) {value : Option String}
    (hr : r.begin o value = .ok r') : r'.Keeps I := by
  obtain ⟨settled, hsettle, hr⟩ := exists_of_bind hr
  have hsettled := h.settle hsettle
  cases value with
  | some value => exact hsettled.accept ho hr
  | none =>
    cases hr
    exact hsettled.pend ho none

theorem of_stop {flag : Flag} (hr : r.stop flag = .ok r') : r'.Keeps I := by
  obtain ⟨_, -, hr⟩ := exists_of_bind hr
  cases hr

end Reading.Keeps

namespace Level

variable {level : Level σ} {r r' : Reading σ}

theorem readLong_keeps (hlevel : ∀ o ∈ level.options, o.Keeps I) (h : r.Keeps I) {name : String}
    {value : Option String} (hr : level.readLong r name value = .ok r') : r'.Keeps I := by
  unfold readLong at hr
  split at hr
  · rename_i o hfind
    exact h.begin (hlevel o (List.mem_of_find?_eq_some hfind)) hr
  · split at hr
    · cases hr
    · exact .of_stop hr
  · cases hr

theorem readShort_keeps (hlevel : ∀ o ∈ level.options, o.Keeps I) (h : r.Keeps I) {letter : Char}
    {more : List Char} (hr : level.readShort r letter more = .ok r') : r'.Keeps I := by
  unfold readShort at hr
  split at hr
  · rename_i o hfind
    exact h.begin (hlevel o (List.mem_of_find?_eq_some hfind)) hr
  · exact .of_stop hr
  · cases hr

/-- What every option of a level keeps holds of all that is read at that level. -/
theorem read_keeps (hlevel : ∀ o ∈ level.options, o.Keeps I) (escaped : Bool) (h : r.Keeps I)
    {words : List String} {result : Reading σ × Option (String × List String)}
    (hr : level.read escaped r words = .ok result) : result.1.Keeps I := by
  induction words generalizing escaped r with
  | nil =>
    cases escaped <;> cases hr <;> exact h
  | cons word rest ih =>
    cases escaped with
    | true => cases hr
    | false =>
      -- A word that is no option is the value of the option before it.
      have hvalue (o : ValueOption σ) (ho : r.awaiting = some o) :
          ({ r with pending := some (o, some word) } : Reading σ).Keeps I :=
        h.pend (h.of_awaiting ho) (some word)
      unfold read at hr
      simp only at hr
      split at hr
      · cases hr
        exact h
      · split at hr
        case h_1 => exact ih true h hr
        case h_2 =>
          obtain ⟨r', hlong, hr⟩ := exists_of_bind hr
          exact ih false (readLong_keeps hlevel h hlong) hr
        case h_3 =>
          split at hr
          · obtain ⟨r', hread, hr⟩ := exists_of_bind hr
            split at hread <;> cases hread
            exact ih false (hvalue _ ‹_›) hr
          · obtain ⟨r', hshort, hr⟩ := exists_of_bind hr
            exact ih false (readShort_keeps hlevel h hshort) hr
        case h_4 =>
          obtain ⟨r', hread, hr⟩ := exists_of_bind hr
          split at hread <;> cases hread
          exact ih false (hvalue _ ‹_›) hr

end Level

end

/-! ## 2. Options -/

/-- Whether all options that have a range are in it. -/
structure Options.InRange (o : Options) : Prop where
  config : ∀ config ∈ o.config, config.Measured
  zoom : o.zoom ≤ 24
  frames : 1 ≤ o.frames ∧ o.frames ≤ 100000
  frameMillis : o.frameMillis < 2 ^ 64
  width : 16 ≤ o.width ∧ o.width ≤ 8192
  height : 16 ≤ o.height ∧ o.height ≤ 8192
  parallelRequests : 1 ≤ o.parallelRequests ∧ o.parallelRequests ≤ 100

theorem Options.inRange_default : default.InRange where
  config _ h := by cases h
  zoom := by decide
  frames := by decide
  frameMillis := by decide
  width := by decide
  height := by decide
  parallelRequests := by decide

theorem Options.InRange.measured {o : Options} (h : o.InRange) :
    (o.config.getD .default).Measured := by
  cases hconfig : o.config with
  | none => exact TrackConfig.measured_default
  | some config => exact h.config config hconfig

theorem bounds_of_between {low high n : Nat} {text : String} (h : between low high text = .ok n) :
    low ≤ n ∧ n ≤ high := by
  unfold between at h
  split at h
  · split at h
    · cases h
      omega
    · cases h
  · cases h

theorem lt_of_natural {n : Nat} {text : String} (h : natural text = .ok n) : n < 2 ^ 64 := by
  unfold natural at h
  split at h
  · cases h
  · have := bounds_of_between h
    omega

/-- An option keeps its place in the range, if what is read of its value is fit for it. -/
theorem keeps_of_read {α : Type} {P : α → Prop} {read : String → Except Refusal α}
    {put : α → Options → Options} (hread : ∀ text a, read text = .ok a → P a)
    (hput : ∀ a o, P a → o.InRange → (put a o).InRange) :
    ∀ text o o', o.InRange → (do return put (← read text) o) = .ok o' → o'.InRange := by
  intro text o o' ho h
  obtain ⟨a, ha, h⟩ := exists_of_bind h
  cases h
  exact hput a o (hread text a ha) ho

theorem optionLevel_keeps {files : FileSystem} {o : ValueOption Options}
    (h : o ∈ (optionLevel files).options) : o.Keeps Options.InRange := by
  simp only [optionLevel, List.mem_cons, List.not_mem_nil, or_false] at h
  rcases h with rfl | rfl | rfl | rfl | rfl | rfl | rfl | rfl | rfl | rfl
  -- The configuration stands in a file, and its lengths are numbers; the other values are words.
  case inl =>
    intro path o o' ho hset
    simp only at hset
    split at hset
    · rename_i config hconfig
      cases hset
      refine { ho with config := fun c hc => ?_ }
      cases hc
      exact TrackConfig.measured_of_ofFile hconfig
    · cases hset
  · exact keeps_of_read (fun _ _ => bounds_of_between) fun _ _ h ho => { ho with zoom := h.2 }
  · exact keeps_of_read (fun _ _ => bounds_of_between) fun _ _ h ho => { ho with frames := h }
  · exact keeps_of_read (fun _ _ _ => trivial) fun _ _ _ ho => { ho with }
  · exact keeps_of_read (fun _ _ _ => trivial) fun _ _ _ ho => { ho with }
  · exact keeps_of_read (fun _ _ => lt_of_natural) fun _ _ h ho => { ho with frameMillis := h }
  · exact keeps_of_read (fun _ _ => bounds_of_between) fun _ _ h ho => { ho with width := h }
  · exact keeps_of_read (fun _ _ => bounds_of_between) fun _ _ h ho => { ho with height := h }
  · rintro text o o' ho ⟨⟩
    exact { ho with }
  · exact keeps_of_read (fun _ _ => bounds_of_between) fun _ _ h ho =>
      { ho with parallelRequests := h }

/-- Whatever command line is accepted, its options are in their ranges. -/
theorem parse_inRange {files : FileSystem} {words : List String} {invocation : Invocation}
    (h : parse files words = .ok invocation) : invocation.options.InRange := by
  obtain ⟨⟨r, command⟩, hread, h⟩ := exists_of_bind h
  have hkeeps : r.Keeps Options.InRange :=
    Level.read_keeps (fun _ => optionLevel_keeps) false (.new Options.inRange_default) hread
  simp only at h
  split at h
  · obtain ⟨_, -, h⟩ := exists_of_bind h
    cases h
  · split at h
    · cases h
    · obtain ⟨paths, -, h⟩ := exists_of_bind h
      obtain ⟨r', hsettle, h⟩ := exists_of_bind h
      cases h
      exact (hkeeps.settle hsettle).values

end TourMap.CommandLine
