import Mathlib.Data.List.Nodup
import TourMap.Proofs.Trace.Sketch

/-!
# Order: the places along a sketch

The vertices of a sketch are marked with their places in a track, and the strokes come place by place
(`Stroke.At`). Then the places rise along the lines and from each line to the next (`InOrder`). Only a
stroke over the border draws two vertices at one place, and the first of them starts a line; and no
line goes on over a place at which the pen is lifted.
-/

namespace TourMap

variable {A : Type} {Part : Nat → A → A → Prop} {Break : Nat → Prop} {i : Nat}

/-! ## 1. Lines -/

/-- Whether the places rise along a line. Its first two vertices may also be the ends of what is seen
of the way to one place. -/
def Rises (Part : Nat → A → A → Prop) : List (Nat × A) → Prop
  | m :: n :: rest =>
    (m.1 < n.1 ∨ m.1 = n.1 ∧ Part m.1 m.2 n.2) ∧ (n :: rest).Pairwise (·.1 < ·.1)
  | _ => True

namespace Rises

variable {line : List (Nat × A)}

theorem concat (h : Rises Part line) {v : Nat × A} (hv : ∀ m ∈ line, m.1 < v.1) :
    Rises Part (line ++ [v]) := by
  match line with
  | [] => trivial
  | [m] => exact ⟨Or.inl (hv m List.mem_cons_self), List.pairwise_singleton _ _⟩
  | m :: n :: rest =>
    refine ⟨h.1, List.pairwise_append.2 ⟨h.2, List.pairwise_singleton _ _, ?_⟩⟩
    intro u hu w hw
    rw [List.mem_singleton.1 hw]
    exact hv u (List.mem_cons_of_mem m hu)

theorem of_append {more : List (Nat × A)} (h : Rises Part (line ++ more)) : Rises Part line := by
  match line with
  | [] | [m] => trivial
  | m :: n :: rest => exact ⟨h.1, (List.pairwise_append.1 h.2).1⟩

theorem pairwise_le (h : Rises Part line) : line.Pairwise (·.1 ≤ ·.1) := by
  match line with
  | [] => exact .nil
  | [m] => exact List.pairwise_singleton _ _
  | m :: n :: rest =>
    have hrest : (n :: rest).Pairwise (·.1 ≤ ·.1) := h.2.imp Nat.le_of_lt
    refine List.pairwise_cons.2 ⟨fun u hu => ?_, hrest⟩
    have hmn : m.1 ≤ n.1 := h.1.elim Nat.le_of_lt fun heq => Nat.le_of_eq heq.1
    rcases List.mem_cons.1 hu with rfl | hu
    · exact hmn
    · exact Nat.le_trans hmn (List.rel_of_pairwise_cons hrest hu)

theorem tail (h : Rises Part line) : line.tail.Pairwise (·.1 < ·.1) := by
  match line with
  | [] | [m] => exact .nil
  | m :: n :: rest => exact h.2

/-- No place comes more than twice, and one that comes twice does so at the start of the line. -/
theorem count_le_two (h : Rises Part line) (i : Nat) :
    (line.map Prod.fst).count i ≤ 2 ∧ ((line.map Prod.fst).count i = 2 →
      ∃ u w rest, line = (i, u) :: (i, w) :: rest ∧ Part i u w) := by
  cases line with
  | nil => exact ⟨Nat.zero_le 2, nofun⟩
  | cons m rest =>
    have hnodup : (rest.map Prod.fst).Nodup := List.pairwise_map.2 (h.tail.imp Nat.ne_of_lt)
    have hone := List.nodup_iff_count_le_one.1 hnodup i
    rw [List.map_cons, List.count_cons]
    refine ⟨by split <;> omega, fun htwo => ?_⟩
    obtain ⟨hm, hcount⟩ : m.1 = i ∧ 0 < (rest.map Prod.fst).count i := by
      split at htwo
      · rename_i hm
        exact ⟨beq_iff_eq.1 hm, by omega⟩
      · omega
    obtain ⟨u, hu, hui⟩ := List.mem_map.1 (List.count_pos_iff.1 hcount)
    cases rest with
    | nil => cases hu
    | cons n rest =>
      -- The second vertex lies between the first one and the other one of the place.
      have hle : n.1 ≤ i := by
        rcases List.mem_cons.1 hu with rfl | hu
        · exact Nat.le_of_eq hui
        · exact hui ▸ Nat.le_of_lt (List.rel_of_pairwise_cons h.2 hu)
      rcases h.1 with hlt | ⟨hsame, hpart⟩
      · omega
      · obtain ⟨j, u⟩ := m
        obtain ⟨k, w⟩ := n
        obtain rfl : j = i := hm
        obtain rfl : j = k := hsame
        exact ⟨u, w, rest, rfl, hpart⟩

end Rises

/-! ## 2. All lines -/

/-- Whether a line lies before each break or behind it. -/
def Unbroken (Break : Nat → Prop) (line : List (Nat × A)) : Prop :=
  ∀ b, Break b → (∀ m ∈ line, m.1 < b) ∨ ∀ m ∈ line, b ≤ m.1

/-- Whether the places, those before `i`, rise along all lines and along the one at hand, which began
after the last break. -/
structure InOrder (Part : Nat → A → A → Prop) (Break : Nat → Prop) (i : Nat)
    (lines : List (List (Nat × A))) (pending : List (Nat × A)) : Prop where
  linesRise : ∀ line ∈ lines, Rises Part line
  unbroken : ∀ line ∈ lines, Unbroken Break line
  linesBefore : ∀ line ∈ lines, ∀ m ∈ line, m.1 < i
  apart : lines.Pairwise fun line next => ∀ m ∈ line, ∀ n ∈ next, m.1 < n.1
  next : ∀ line ∈ lines, ∀ m ∈ line, ∀ n ∈ pending, m.1 < n.1
  rises : Rises Part pending
  before : ∀ m ∈ pending, m.1 < i
  fresh : ∀ b, Break b → b < i → ∀ m ∈ pending, b ≤ m.1

namespace InOrder

variable {lines : List (List (Nat × A))} {pending : List (Nat × A)}

theorem empty : InOrder Part Break 0 [] ([] : List (Nat × A)) :=
  ⟨nofun, nofun, nofun, .nil, nofun, trivial, nofun, nofun⟩

/-- The end of the line at hand may be dropped. -/
theorem of_prefix {kept : List (Nat × A)} (h : InOrder Part Break i lines pending)
    (hkept : kept <+: pending) : InOrder Part Break i lines kept := by
  obtain ⟨more, rfl⟩ := hkept
  have hmem {m : Nat × A} (hm : m ∈ kept) : m ∈ kept ++ more := List.mem_append_left more hm
  exact ⟨h.linesRise, h.unbroken, h.linesBefore, h.apart,
    fun line hline m hm n hn => h.next line hline m hm n (hmem hn), h.rises.of_append,
    fun m hm => h.before m (hmem hm), fun b hb hlt m hm => h.fresh b hb hlt m (hmem hm)⟩

theorem close (h : InOrder Part Break i lines pending) :
    InOrder Part Break i (lines ++ [pending]) [] := by
  have hall {P : List (Nat × A) → Prop} (hlines : ∀ line ∈ lines, P line) (hpending : P pending)
      (line : List (Nat × A)) (hline : line ∈ lines ++ [pending]) : P line := by
    rcases List.mem_append.1 hline with hline | hline
    · exact hlines line hline
    · rwa [List.mem_singleton.1 hline]
  have hunbroken : Unbroken Break pending := fun b hb =>
    (Nat.lt_or_ge b i).elim (fun hlt => Or.inr (h.fresh b hb hlt))
      fun hle => Or.inl fun m hm => Nat.lt_of_lt_of_le (h.before m hm) hle
  refine ⟨hall h.linesRise h.rises, hall h.unbroken hunbroken, hall h.linesBefore h.before, ?_, nofun,
    trivial, nofun, nofun⟩
  refine List.pairwise_append.2 ⟨h.apart, List.pairwise_singleton _ _, ?_⟩
  intro line hline next hnext
  rw [List.mem_singleton.1 hnext]
  exact h.next line hline

/-- A new line starts at the place `i`. -/
theorem start (h : InOrder Part Break i lines []) {line : List (Nat × A)} (hrises : Rises Part line)
    (hplace : ∀ m ∈ line, m.1 = i) : InOrder Part Break (i + 1) lines line := by
  refine ⟨h.linesRise, h.unbroken, fun l hl m hm => Nat.lt_succ_of_lt (h.linesBefore l hl m hm),
    h.apart, fun l hl m hm n hn => ?_, hrises, fun m hm => ?_, fun b hb hlt m hm => ?_⟩
  · rw [hplace n hn]
    exact h.linesBefore l hl m hm
  · exact Nat.lt_succ_of_le (Nat.le_of_eq (hplace m hm))
  · rw [hplace m hm]
    exact Nat.le_of_lt_succ hlt

/-- Where there is no break, the line at hand goes on. -/
theorem concat (h : InOrder Part Break i lines pending) (hbreak : ¬ Break i) {v : Nat × A}
    (hv : v.1 = i) : InOrder Part Break (i + 1) lines (pending ++ [v]) := by
  have hall {P : Nat × A → Prop} (hpending : ∀ m ∈ pending, P m) (hlast : P v) (m : Nat × A)
      (hm : m ∈ pending ++ [v]) : P m := by
    rcases List.mem_append.1 hm with hm | hm
    · exact hpending m hm
    · rwa [List.mem_singleton.1 hm]
  have hbefore : ∀ m ∈ pending, m.1 < v.1 := fun m hm => hv ▸ h.before m hm
  refine ⟨h.linesRise, h.unbroken, fun l hl m hm => Nat.lt_succ_of_lt (h.linesBefore l hl m hm),
    h.apart, fun l hl m hm => hall (h.next l hl m hm) (hv ▸ h.linesBefore l hl m hm),
    h.rises.concat hbefore,
    hall (fun m hm => Nat.lt_succ_of_lt (h.before m hm)) (Nat.lt_succ_of_le (Nat.le_of_eq hv)), ?_⟩
  intro b hb hlt
  have hle : b < i := by
    rcases Nat.lt_succ_iff_lt_or_eq.1 hlt with hlt | rfl
    · exact hlt
    · exact (hbreak hb).elim
  exact hall (h.fresh b hb hle) (hv ▸ Nat.le_of_lt hle)

/-- The places never fall from one vertex to the next, all lines one after the other. -/
theorem pairwise_le (h : InOrder Part Break i lines pending) :
    lines.flatten.Pairwise (·.1 ≤ ·.1) :=
  List.pairwise_flatten.2 ⟨fun line hline => (h.linesRise line hline).pairwise_le,
    h.apart.imp fun hlt m hm n hn => Nat.le_of_lt (hlt m hm n hn)⟩

/-- A place comes in one line only. -/
theorem count_eq (h : InOrder Part Break i lines pending) {j : Nat}
    (hj : j ∈ lines.flatten.map Prod.fst) :
    ∃ line ∈ lines, (lines.flatten.map Prod.fst).count j = (line.map Prod.fst).count j := by
  obtain ⟨m, hm, rfl⟩ := List.mem_map.1 hj
  obtain ⟨line, hline, hin⟩ := List.mem_flatten.1 hm
  obtain ⟨before, after, rfl⟩ := List.append_of_mem hline
  obtain ⟨-, hafter, hbefore⟩ := List.pairwise_append.1 h.apart
  have hnone {others : List (List (Nat × A))}
      (hothers : ∀ other ∈ others, ∀ n ∈ other, n.1 ≠ m.1) :
      (others.flatten.map Prod.fst).count m.1 = 0 := by
    refine List.count_eq_zero.2 fun hmem => ?_
    obtain ⟨n, hn, hsame⟩ := List.mem_map.1 hmem
    obtain ⟨other, hother, hn⟩ := List.mem_flatten.1 hn
    exact hothers other hother n hn hsame
  refine ⟨line, hline, ?_⟩
  rw [List.flatten_append, List.flatten_cons, List.map_append, List.map_append, List.count_append,
    List.count_append, hnone, hnone, Nat.zero_add, Nat.add_zero]
  · exact fun other hother n hn =>
      Nat.ne_of_gt (List.rel_of_pairwise_cons hafter hother m hin n hn)
  · exact fun other hother n hn =>
      Nat.ne_of_lt (hbefore other hother line List.mem_cons_self n hn m hin)

/-- No place comes more than twice, and one that comes twice does so at the start of a line. -/
theorem count_le_two (h : InOrder Part Break i lines pending) (j : Nat) :
    (lines.flatten.map Prod.fst).count j ≤ 2 ∧ ((lines.flatten.map Prod.fst).count j = 2 →
      ∃ line ∈ lines, ∃ u w rest, line = (j, u) :: (j, w) :: rest ∧ Part j u w) := by
  by_cases hj : j ∈ lines.flatten.map Prod.fst
  · obtain ⟨line, hline, hcount⟩ := h.count_eq hj
    rw [hcount]
    obtain ⟨hle, htwo⟩ := (h.linesRise line hline).count_le_two j
    exact ⟨hle, fun heq => ⟨line, hline, htwo heq⟩⟩
  · rw [List.count_eq_zero.2 hj]
    exact ⟨Nat.zero_le 2, nofun⟩

end InOrder

/-! ## 3. Strokes -/

/-- Whether a stroke draws the place `i`. What it draws over the border is the part of a way that is
seen, and a break lifts the pen. -/
def Stroke.At (Part : Nat → A → A → Prop) (Break : Nat → Prop) (i : Nat) : Stroke (Nat × A) → Prop
  | .lift v => ∀ m ∈ v, m.1 = i
  | .goOn v => ¬ Break i ∧ v.1 = i
  | .enter a b | .leave a b _ => ¬ Break i ∧ a.1 = i ∧ b.1 = i ∧ Part i a.2 b.2

namespace Sketch

variable {s : Sketch (Nat × A)} (far : Nat × A → Nat × A → Bool)

theorem inOrder_flush (h : InOrder Part Break i s.lines s.pending) :
    InOrder Part Break i s.flush.lines [] := by
  unfold flush
  dsimp only
  split
  · rw [List.append_nil]
    exact h.of_prefix (List.nil_prefix)
  · exact h.close

theorem rises_pair {a b : Nat × A} (ha : a.1 = i) (hb : b.1 = i) (hpart : Part i a.2 b.2) :
    Rises Part [a, b] ∧ ∀ m ∈ [a, b], m.1 = i := by
  refine ⟨⟨Or.inr ⟨ha.trans hb.symm, ha ▸ hpart⟩, List.pairwise_singleton _ _⟩, ?_⟩
  simp [ha, hb]

/-- A stroke takes the order on by one place. -/
theorem inOrder_draw (h : InOrder Part Break i s.lines s.pending) {stroke : Stroke (Nat × A)}
    (hstroke : stroke.At Part Break i) :
    InOrder Part Break (i + 1) (s.draw far stroke).lines (s.draw far stroke).pending := by
  have hflush := inOrder_flush h
  have hnil : InOrder Part Break (i + 1) s.flush.lines [] := hflush.start trivial nofun
  cases stroke with
  | lift v =>
    have hrises : Rises Part v.toList := by
      cases v <;> trivial
    have hplace : ∀ m ∈ v.toList, m.1 = i := fun m hm => hstroke m (Option.mem_toList.1 hm)
    simpa [draw, pending, flush] using hflush.start hrises hplace
  | goOn v =>
    obtain ⟨hbreak, hv⟩ := hstroke
    have hline := (h.of_prefix (List.prefix_append s.run _)).concat hbreak hv
    rw [draw]
    split
    · simpa [pending] using hline
    · exact hline
  | enter a b =>
    obtain ⟨-, ha, hb, hpart⟩ := hstroke
    obtain ⟨hrises, hplace⟩ := rises_pair ha hb hpart
    exact hflush.start hrises hplace
  | leave a b touches =>
    obtain ⟨hbreak, ha, hb, hpart⟩ := hstroke
    obtain ⟨hrises, hplace⟩ := rises_pair ha hb hpart
    rw [draw]
    split
    · split
      · exact hnil
      · exact inOrder_flush (s := { s.flush with run := [a, b] }) (hflush.start hrises hplace)
    · have hline := h.concat hbreak hb
      refine inOrder_flush (s := ⟨s.lines, s.pending ++ [b], none⟩) ?_
      simpa [pending] using hline

theorem inOrder_drawAll {strokes : List (Stroke (Nat × A))}
    (h : InOrder Part Break i s.lines s.pending)
    (hstrokes : ∀ (j : Nat) (stroke : Stroke (Nat × A)), strokes[j]? = some stroke →
      stroke.At Part Break (i + j)) :
    InOrder Part Break (i + strokes.length) (s.drawAll far strokes).lines
      (s.drawAll far strokes).pending := by
  induction strokes generalizing s i with
  | nil => exact h
  | cons stroke rest ih =>
    have hdraw := inOrder_draw far h (hstrokes 0 stroke rfl)
    have hrest := ih hdraw fun j stroke hj => by
      rw [Nat.add_assoc, Nat.add_comm 1]
      exact hstrokes (j + 1) stroke hj
    rwa [Nat.add_assoc, Nat.add_comm 1] at hrest

/-- Strokes that come place by place draw lines in order. -/
theorem inOrder_linesOf {strokes : List (Stroke (Nat × A))}
    (hstrokes : ∀ (i : Nat) (stroke : Stroke (Nat × A)), strokes[i]? = some stroke →
      stroke.At Part Break i) :
    InOrder Part Break strokes.length (linesOf far strokes) [] := by
  have hall := inOrder_drawAll far (s := empty) (i := 0) InOrder.empty fun j stroke hj => by
    rw [Nat.zero_add]
    exact hstrokes j stroke hj
  rw [Nat.zero_add] at hall
  exact inOrder_flush hall

end Sketch

end TourMap
