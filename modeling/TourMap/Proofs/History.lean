/-!
# History: the events that lead to a state

A system is given by what an event makes of a state, if the event can take place in it. A `History`
is what happened to a system so far. Every event is kept with the state in which it took place, so a
statement on the past can speak of what was the case at any moment of it.
-/

namespace TourMap

/-- The events `past`, the latest first and each with the state in which it took place, lead from
`start` to a state. -/
inductive History {σ ε : Type} (step : σ → ε → Option σ) (start : σ) : List (σ × ε) → σ → Prop where
  | start : History step start [] start
  | next {past : List (σ × ε)} {s t : σ} (e : ε) :
    History step start past s → step s e = some t → History step start ((s, e) :: past) t

namespace History

variable {σ ε : Type} {step : σ → ε → Option σ} {start s v : σ} {past : List (σ × ε)} {e : ε}

/-- What holds at the start and is kept by every event holds all along. -/
theorem invariant {P : σ → Prop} (h : History step start past s) (hstart : P start)
    (hstep : ∀ s e t, P s → step s e = some t → P t) : P s := by
  induction h with
  | start => exact hstart
  | next e _ he ih => exact hstep _ e _ ih he

/-- What an event brings about and every event keeps holds ever since. -/
theorem since {P : σ → Prop} (h : History step start past s) (hmem : (v, e) ∈ past)
    (hevent : ∀ t, step v e = some t → P t)
    (hstep : ∀ s e t, P s → step s e = some t → P t) : P s := by
  induction h with
  | start => cases hmem
  | next e' _ he ih =>
    -- Either the event was the last one, or `P` held before the last one already.
    rcases List.mem_cons.1 hmem with heq | hmem
    · obtain ⟨rfl, rfl⟩ := Prod.mk.inj heq
      exact hevent _ he
    · exact hstep _ e' _ (ih hmem) he

theorem mem_events {events : List ε} (hmem : (v, e) ∈ past)
    (hevents : past.map Prod.snd = events.reverse) : e ∈ events := by
  rw [← List.mem_reverse, ← hevents]
  exact List.mem_map_of_mem (f := Prod.snd) hmem

/-- Each state of the past was itself led to. -/
theorem earlier (h : History step start past s) (hmem : (v, e) ∈ past) :
    ∃ older, History step start older v := by
  induction h with
  | start => cases hmem
  | next e' hpast _ ih =>
    rcases List.mem_cons.1 hmem with heq | hmem
    · obtain ⟨rfl, rfl⟩ := Prod.mk.inj heq
      exact ⟨_, hpast⟩
    · exact ih hmem

/-- What led to a state, and what happened from there on. -/
theorem append {recent : List (σ × ε)} {t : σ} (h : History step start past s)
    (hrecent : History step s recent t) : History step start (recent ++ past) t := by
  induction hrecent with
  | start => exact h
  | next e _ he ih => exact ih.next e he

/-- Events that can take place one after the other make a history longer. -/
theorem extend {events : List ε} {t : σ} (h : History step start past s)
    (hevents : events.foldlM step s = some t) :
    ∃ recent, History step start (recent ++ past) t ∧ recent.map Prod.snd = events.reverse := by
  induction events generalizing past s with
  | nil =>
    obtain rfl := Option.some.inj hevents
    exact ⟨[], h, rfl⟩
  | cons e rest ih =>
    obtain ⟨u, hu, hrest⟩ := Option.bind_eq_some_iff.1 hevents
    obtain ⟨recent, hrecent, hmap⟩ := ih (h.next e hu) hrest
    refine ⟨recent ++ [(s, e)], ?_, ?_⟩
    · rwa [List.append_assoc, List.singleton_append]
    · rw [List.map_append, hmap, List.reverse_cons, List.map_singleton]

end History

end TourMap
