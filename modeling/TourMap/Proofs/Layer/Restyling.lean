import TourMap.Proofs.Builder.Style
import TourMap.Proofs.Layer.Freshness

/-!
# Restyling: a change of the style needs no computation

A configuration that differs only in its style is applied to the drawn geometry right away, and
neither the worker nor the request on its way is told. Since the style of a request makes no
difference to the rest of its geometry, and every task is restyled when it is polled, what is drawn
from there on is what a computation under the new configuration would give.
-/

namespace TourMap

variable {W N : Type}

/-- What a bucket holds besides its style. -/
def LineBucket.buffers (b : LineBucket N) :
    Array (Point N) × Array Color × Array Nat × Array (Point N) :=
  (b.vertices, b.colors, b.lineEnds, b.arrows)

/-- Whether two configurations differ in the style and in the delay of requests at most. -/
structure TrackConfig.SameGeometry (c d : TrackConfig N) : Prop where
  showArrows : c.showArrows = d.showArrows
  arrowDistance : c.arrowDistance = d.arrowDistance
  minDistance : c.minDistance = d.minDistance
  clipExtent : c.clipExtent = d.clipExtent

namespace TrackConfig.SameGeometry

variable [Arithmetic N] {c d : TrackConfig N}

theorem sanitized (h : c.SameGeometry d) : c.sanitized.SameGeometry d.sanitized where
  showArrows := h.showArrows
  arrowDistance := by simp only [TrackConfig.sanitized, h.arrowDistance]
  minDistance := by simp only [TrackConfig.sanitized, h.minDistance]
  clipExtent := by simp only [TrackConfig.sanitized, h.clipExtent]

/-- The settings of two such configurations differ in the style alone. -/
theorem withStyle_ofConfig (h : c.SameGeometry d) :
    (BuildSettings.ofConfig d).withStyle (BuildSettings.ofConfig c).style = .ofConfig c := by
  have hsame := h.sanitized
  simp only [BuildSettings.withStyle, BuildSettings.ofConfig, hsame.showArrows,
    hsame.arrowDistance, hsame.minDistance, hsame.clipExtent]

end TrackConfig.SameGeometry

namespace LayerSystem

variable [Mercator W] [Arithmetic N] [Resolution W N] {s t u : LayerSystem W N} {e : Event W N}
  {past later : Past W N}

/-! ## 1. The configuration of the last request -/

omit [Mercator W] [Arithmetic N] [Resolution W N] in
/-- The configuration that the layer had when it asked for geometry last. -/
def lastConfig : Past W N → Option (TrackConfig N)
  | [] => none
  | (s, e) :: past =>
    match e, s.call with
    | .proceed, some (.submit _ _) => some s.layer.config
    | _, _ => lastConfig past

omit [Mercator W] [Arithmetic N] [Resolution W N] in
theorem lastConfig_cons (h : ¬ s.Asks e) : lastConfig ((s, e) :: past) = lastConfig past := by
  rw [lastConfig]
  rintro viewport isFrame rfl hcall
  exact h ⟨rfl, viewport, isFrame, hcall⟩

/-- Whether the settings now and those of the last request are those of the configurations now and
then, and both configurations have a property. -/
structure Configured (K : TrackConfig N → Prop) (past : Past W N) (s : LayerSystem W N) : Prop where
  config : K s.layer.config
  settings : s.layer.settings = .ofConfig s.layer.config
  lastConfig : ∀ c, lastConfig past = some c → K c
  order : (Worker.latestOrder (workerPast past)).map (·.settings) =
    (LayerSystem.lastConfig past).map .ofConfig

namespace Configured

variable {K : TrackConfig N → Prop}

omit [Mercator W] [Resolution W N] in
theorem transfer (hs : Configured K past s) (hasks : ¬ s.Asks e) (hconfig : K t.layer.config)
    (hsettings : t.layer.settings = .ofConfig t.layer.config) :
    Configured K ((s, e) :: past) t where
  config := hconfig
  settings := hsettings
  lastConfig := by
    rw [lastConfig_cons hasks]
    exact hs.lastConfig
  order := by
    rw [latestOrder_workerPast_cons hasks, lastConfig_cons hasks]
    exact hs.order

end Configured

theorem Move.configured {K : TrackConfig N → Prop} (h : Move s e t) (hs : Configured K past s)
    (hconfig : ∀ c verticesAffected, e = .config c verticesAffected → K c.sanitized) :
    Configured K ((s, e) :: past) t := by
  cases h with
  | configure config | askAgain config | restyle config =>
    exact hs.transfer (by simp [Asks]) (hconfig _ _ rfl) rfl
  | submit viewport isFrame hcall =>
    -- The request is made under the configuration that the layer has.
    refine ⟨hs.config, hs.settings, ?_, ?_⟩
    · intro c hc
      simp only [lastConfig, hcall] at hc
      exact Option.some.inj hc ▸ hs.config
    · simp only [workerPast, workerEvent?, lastConfig, hcall, Worker.latestOrder, Option.map_some,
        hs.settings]
  | ask viewport hcall | goOn viewport hcall | endFrame viewport hcall | notify isFrame hcall
  | pollNothing hcall | poll task hcall | recycle task hcall | notifySpare hcall | cancel hcall =>
    exact hs.transfer (by simp [Asks, hcall]) hs.config hs.settings
  | ignoreFrame | beginFrame | keepEnabled | toggle | update | mark | cancelStale | advance | wake
  | tick => exact hs.transfer (by simp [Asks]) hs.config hs.settings

theorem HasPast.configured {config : TrackConfig N} {K : TrackConfig N → Prop}
    (h : HasPast config past s) (hstart : K config.sanitized)
    (hconfigs : ∀ m c verticesAffected, (m, .config c verticesAffected) ∈ past → K c.sanitized) :
    Configured K past s := by
  induction h with
  | start => exact ⟨hstart, rfl, nofun, rfl⟩
  | @next past s t e h he ih =>
    refine (move_of_step he).configured
      (ih fun m c b hmem => hconfigs m c b (List.mem_cons_of_mem _ hmem)) fun c b hc => ?_
    exact hconfigs s c b (hc ▸ List.mem_cons_self)

/-! ## 2. After a change of the style -/

/-- Whether `t` is `s` with another configuration, all else but the style left alone. -/
structure Restyles (config : TrackConfig N) (s t : LayerSystem W N) : Prop where
  config_eq : t.layer.config = config.sanitized
  settings_eq : t.layer.settings = .ofConfig config.sanitized
  delay_eq : t.layer.delay = config.sanitized.coalescingDelay
  buffers : t.layer.active.buckets.toList.map LineBucket.buffers =
    s.layer.active.buckets.toList.map LineBucket.buffers
  position : t.layer.active.position = s.layer.active.position
  revision : t.layer.active.revision = s.layer.active.revision
  state : t.layer.state = s.layer.state
  lastTile : t.layer.lastTile = s.layer.lastTile
  viewport : t.layer.viewport = s.layer.viewport
  enabled : t.layer.enabled = s.layer.enabled
  /-- All of the worker, what is queued, running or done included. -/
  worker : t.worker = { s.worker with redraws := s.worker.redraws + 1 }
  call : t.call = s.call
  updates : t.updates = s.updates

/-- Whether the layer has these settings and draws in their style. -/
structure Wears (settings : BuildSettings N) (s : LayerSystem W N) : Prop where
  settings_eq : s.layer.settings = settings
  style : ∀ l ∈ s.layer.active.buckets.toList, l.style = settings.style

omit [Mercator W] [Arithmetic N] [Resolution W N] in
theorem style_of_mem_setStyle {b : RenderBuckets N} {style : LineStyle N} {l : LineBucket N}
    (h : l ∈ (b.setStyle style).toList) : l.style = style := by
  obtain ⟨_ | bucket⟩ := b
  · cases h
  · obtain rfl := List.mem_singleton.1 h
    rfl

theorem restyles_step (hcall : s.call = none) (config : TrackConfig N) :
    ∃ t, s.step (.config config false) = some t ∧ Restyles config s t ∧
      Wears (.ofConfig config.sanitized) t := by
  refine ⟨s.beginConfig config false, by simp [step, hcall], ?_, rfl, ?_⟩
  · refine ⟨rfl, rfl, rfl, ?_, rfl, rfl, rfl, rfl, rfl, rfl, rfl, rfl, rfl⟩
    -- There may be no bucket, and then there is none to restyle.
    change (s.layer.active.buckets.setStyle _).toList.map _ = _
    obtain ⟨_ | bucket⟩ := s.layer.active.buckets <;> rfl
  · exact fun l => style_of_mem_setStyle

/-- Whatever is polled is drawn in the style of the settings. -/
theorem Move.wears {settings : BuildSettings N} (h : Move s e t) (hs : Wears settings s)
    (hconfig : ∀ c verticesAffected, e ≠ .config c verticesAffected) : Wears settings t := by
  cases h with
  | configure | askAgain | restyle => exact (hconfig _ _ rfl).elim
  | poll task hcall hdone =>
    refine ⟨hs.settings_eq, fun l hl => ?_⟩
    rw [← hs.settings_eq]
    exact style_of_mem_setStyle (b := task.buckets) hl
  | _ => exact ⟨hs.settings_eq, hs.style⟩

/-- As long as the configuration stays, what is asked for is asked for under its settings. -/
theorem wears_since {settings : BuildSettings N} (past : Past W N) (h : History step t later u)
    (ht : Wears settings t)
    (hconfig : ∀ m c verticesAffected, (m, .config c verticesAffected) ∉ later) :
    Wears settings u ∧ ∀ o, Worker.latestOrder (workerPast (later ++ past)) = some o →
      o.settings = settings ∨ Worker.latestOrder (workerPast past) = some o := by
  induction h with
  | start => exact ⟨ht, fun o ho => .inr ho⟩
  | @next later s u e h he ih =>
    obtain ⟨hs, horders⟩ := ih fun m c b hmem => hconfig m c b (List.mem_cons_of_mem _ hmem)
    refine ⟨(move_of_step he).wears hs ?_, fun o ho => ?_⟩
    · rintro c b rfl
      exact hconfig s c b List.mem_cons_self
    · rw [List.cons_append] at ho
      by_cases hasks : s.Asks e
      · -- What is asked for now is asked for under the settings that the layer has had since.
        obtain ⟨rfl, viewport, isFrame, hcall⟩ := hasks
        simp only [workerPast, workerEvent?, hcall, Worker.latestOrder, Option.some.injEq] at ho
        subst ho
        exact .inl hs.settings_eq
      · rw [latestOrder_workerPast_cons hasks] at ho
        exact horders o ho

/-- A request under a configuration of the same geometry differs from one under the new configuration
in the style at most. -/
theorem HasPast.withStyle_latestOrder {start config : TrackConfig N} (h : HasPast start past s)
    (hsame : ∀ c, lastConfig past = some c → config.SameGeometry c) {o : Order W N}
    (ho : Worker.latestOrder (workerPast past) = some o) :
    o.settings.withStyle (BuildSettings.ofConfig config).style = .ofConfig config := by
  have hconfigured : Configured (fun _ => True) past s :=
    h.configured trivial fun _ _ _ _ => trivial
  have horder := hconfigured.order
  rw [ho, Option.map_some] at horder
  obtain ⟨c, hc, hsettings⟩ := Option.map_eq_some_iff.1 horder.symm
  rw [← hsettings]
  exact (hsame c hc).withStyle_ofConfig

/-- Two builds whose settings differ in the style alone end in the same way, and their buckets differ
in the style alone unless neither build touched them. So a layer can change its style by restyling
what it draws: nothing else changes, neither in the layer nor at the worker. As long as no other
configuration comes, all that is drawn is in the new style, and so is a task that is polled. If the
configuration differs from that of the last request in nothing but the style and the delay, then what
is drawn, once the answer to the last request was polled, is the geometry that a computation under
the new configuration would give. -/
theorem style_change_equals_recomputation {start : TrackConfig N}
    {memory : Nat → Array (GeoPoint W)} (h : HasPast start past s)
    (hstored : ∀ m track, (m, .update track) ∈ past → track.StoredIn memory)
    (hcall : s.call = none) (config : TrackConfig N) :
    (∀ (b : Builder W) (track : TrackData W) (position : MapPosition W)
        (settings : BuildSettings N) (style : LineStyle N) (buckets : RenderBuckets N)
        (cancelledAt : Option Nat),
      let first := b.build track position settings buckets cancelledAt
      let second := b.build track position (settings.withStyle style) buckets cancelledAt
      second.1 = first.1 ∧ second.2.2 = first.2.2 ∧
        (second.2.1 = first.2.1.setStyle style ∨
          first.2 = (buckets, .error ⟨⟩) ∧ second.2 = (buckets, .error ⟨⟩))) ∧
    ∃ t, s.step (.config config false) = some t ∧ Restyles config s t ∧
      ∀ later u, History step t later u →
        (∀ m c verticesAffected, (m, .config c verticesAffected) ∉ later) →
        (∀ m track, (m, .update track) ∈ later → track.StoredIn memory) →
        (∀ l ∈ u.layer.active.buckets.toList, l.style = t.layer.settings.style) ∧
        (∀ task, u.call = some .poll → u.worker.state.done = some task →
          u.proceed.layer.active.buckets = task.buckets.setStyle t.layer.settings.style) ∧
        (u.HasPolled → (∀ c, lastConfig past = some c → t.layer.config.SameGeometry c) →
          ∃ o track,
            Worker.latestOrder (workerPast (later ++ (s, .config config false) :: past)) = some o ∧
            u.layer.active.position = o.position ∧
            (Worker.tracks (workerPast (later ++ (s, .config config false) :: past)))[
              u.layer.active.revision]? = some track ∧
            u.layer.active.buckets =
              Builder.geometry track u.layer.active.position t.layer.settings) := by
  refine ⟨fun b => b.build_withStyle, ?_⟩
  obtain ⟨t, ht, hrestyles, hwears⟩ := restyles_step hcall config
  refine ⟨t, ht, hrestyles, fun later u hlater hconfig hstored' => ?_⟩
  obtain ⟨hu, horders⟩ := wears_since ((s, .config config false) :: past) hlater hwears hconfig
  rw [hrestyles.settings_eq, hrestyles.config_eq]
  refine ⟨hu.style, fun task hpoll hdone => ?_, fun hpolled hsame => ?_⟩
  · rw [← hu.settings_eq]
    simp only [proceed, hpoll, Worker.poll, WorkerState.poll, hdone]
    rfl
  · have hpast : HasPast start (later ++ (s, .config config false) :: past) u :=
      (h.next _ ht).append hlater
    have hall (m : LayerSystem W N) (track : TrackData W)
        (hmem : (m, .update track) ∈ later ++ (s, .config config false) :: past) :
        track.StoredIn memory := by
      obtain hmem | hmem := List.mem_append.1 hmem
      · exact hstored' m track hmem
      · obtain heq | hmem := List.mem_cons.1 hmem
        · cases heq
        · exact hstored m track hmem
    obtain ⟨o, track, horder, hposition, -, htrack, hbuckets⟩ := (hpast.shows hall hpolled).answer
    refine ⟨o, track, horder, hposition, htrack, ?_⟩
    -- The request was made after the change, or under a configuration of the same geometry.
    have hsettings : o.settings.withStyle (BuildSettings.ofConfig config.sanitized).style =
        .ofConfig config.sanitized := by
      obtain hnew | hold := horders o horder
      · rw [hnew]
        rfl
      · rw [latestOrder_workerPast_cons (by simp [Asks])] at hold
        exact h.withStyle_latestOrder hsame hold
    rw [hbuckets, hu.settings_eq, hposition, ← Builder.geometry_withStyle, hsettings]

/-- A frame that asks for geometry, while the worker thread does nothing. -/
def queuedFrame : List (Event Double Single) :=
  [.update shortTrack, .proceedUpdate 0, .proceedUpdate 0, .frame .corner,
    .proceed, .proceed, .proceed, .proceed]

/-- The worker thread computes the geometry, and a frame polls it. -/
def answeredFrame : List (Event Double Single) :=
  [.advance, .advance, .advance, .advance, .advance,
    .frame .corner, .proceed, .proceed, .proceed, .proceed]

def solidLines : TrackConfig Single := { TrackConfig.default with lineColorMode := .solid }

/-- The request was queued before the style changed. -/
theorem style_change_equals_recomputation_at_queuedFrame :
    ∃ (s t : LayerSystem Double Single) (later : Past Double Single) (u : LayerSystem Double Single)
      (track : TrackData Double), s.worker.state.request.isSome = true ∧
      s.step (.config solidLines false) = some t ∧ History step t later u ∧
      u.layer.state = .geometryFresh ∧ t.layer.settings = .ofConfig solidLines.sanitized ∧
      u.layer.active.buckets =
        Builder.geometry track u.layer.active.position t.layer.settings := by
  have hrun : (queuedFrame.foldlM step (new .default)).any (fun s =>
      s.call.isNone = true ∧ s.worker.state.request.isSome = true ∧
        ((s.step (.config solidLines false)).bind (answeredFrame.foldlM step)).any
          (fun u => u.layer.state = .geometryFresh) = true) = true := by
    decide +kernel
  obtain ⟨past, s, hpast, hevents, hcall, hqueued, hlater⟩ := exists_hasPast_of_run hrun
  have hstored (m : LayerSystem Double Single) (track : TrackData Double)
      (hmem : (m, .update track) ∈ past) : track.StoredIn fun _ => shortTrack.points := by
    have hevent := History.mem_events hmem hevents
    simp only [queuedFrame, List.mem_cons, List.not_mem_nil, Event.update.injEq, reduceCtorEq,
      or_false] at hevent
    exact .inr (by rw [hevent])
  have hconfigured : Configured (· = TrackConfig.default.sanitized) past s :=
    hpast.configured rfl fun m c b hmem => by
      have hevent := History.mem_events hmem hevents
      simp [queuedFrame] at hevent
  obtain ⟨-, t, ht, hrestyles, hafter⟩ := style_change_equals_recomputation hpast hstored
    (Option.isNone_iff_eq_none.1 hcall) solidLines
  rw [ht, Option.bind_some] at hlater
  obtain ⟨u, hu, hfresh⟩ := (Option.any_eq_true _ _).1 hlater
  obtain ⟨later, hhistory, hnames⟩ := History.start.extend hu
  rw [List.append_nil] at hhistory
  have hanswered {m : LayerSystem Double Single} {e : Event Double Single}
      (hmem : (m, e) ∈ later) : e ∈ answeredFrame := History.mem_events hmem hnames
  obtain ⟨-, -, hgeometry⟩ := hafter later u hhistory
    (fun m c b hmem => by simpa [answeredFrame] using hanswered hmem)
    (fun m track hmem => by simpa [answeredFrame] using hanswered hmem)
  obtain ⟨o, track, -, -, -, hbuckets⟩ := hgeometry (.inl (of_decide_eq_true hfresh)) fun c hc => by
    have hsame : solidLines.SameGeometry .default := ⟨rfl, rfl, rfl, rfl⟩
    rw [hconfigured.lastConfig c hc, hrestyles.config_eq]
    exact hsame.sanitized
  exact ⟨s, t, later, u, track, hqueued, ht, hhistory, of_decide_eq_true hfresh,
    hrestyles.settings_eq, hbuckets⟩

end LayerSystem

end TourMap
