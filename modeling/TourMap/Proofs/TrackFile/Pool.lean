import Mathlib.Data.List.Perm.Basic
import TourMap.TrackFile.Pool

/-!
# Pool: every task ends once

A pool neither loses nor repeats a task (`Pool.all`), and as long as one is left, one of them runs and
can end. So whatever the limit and whatever task is picked to end next, the completions are the tasks
in some order.
-/

namespace TourMap

namespace Pool

variable {α : Type} (p : Pool α)

/-- All the tasks, wherever they are. -/
def all : List α := p.ended ++ (p.running ++ p.waiting)

/-- How many tasks have not ended. -/
def left : Nat := p.running.length + p.waiting.length

/-! ## 1. One task more -/

theorem fill_all (limit : Nat) : (p.fill limit).all = p.all := by
  simp only [all, fill, List.append_assoc, List.take_append_drop]

theorem fill_left (limit : Nat) : (p.fill limit).left = p.left := by
  simp only [left, fill, List.length_append, List.length_take, List.length_drop]
  omega

/-- A task that is left can run. -/
theorem fill_running {limit : Nat} (hlimit : 0 < limit) (hleft : 0 < p.left) :
    0 < (p.fill limit).running.length := by
  simp only [left] at hleft
  simp only [fill, List.length_append, List.length_take]
  omega

theorem endOne_all (number : Nat) : (p.endOne number).all.Perm p.all := by
  unfold endOne
  dsimp only
  split
  · rename_i task htask
    obtain ⟨hlt, rfl⟩ := List.getElem?_eq_some_iff.1 htask
    -- The task moves from the midst of those that run to the front of those that ended.
    simp only [all, List.cons_append]
    refine List.perm_middle.symm.trans (List.Perm.append_left p.ended ?_)
    rw [← List.cons_append]
    exact (List.getElem_cons_eraseIdx_perm hlt).append_right p.waiting
  · rfl

theorem endOne_left (number : Nat) (hrunning : 0 < p.running.length) :
    (p.endOne number).left + 1 = p.left := by
  have hlt : number % p.running.length < p.running.length := Nat.mod_lt _ hrunning
  unfold endOne
  dsimp only
  rw [List.getElem?_eq_getElem hlt]
  simp only [left, List.length_eraseIdx, if_pos hlt]
  omega

/-! ## 2. All tasks -/

theorem run_all (limit : Nat) (pick : Nat → Nat) (count : Nat) :
    (p.run limit pick count).all.Perm p.all := by
  induction count generalizing p with
  | zero => rfl
  | succ n ih =>
    refine (ih _).trans ((endOne_all _ _).trans ?_)
    rw [fill_all]

theorem run_left {limit : Nat} (hlimit : 0 < limit) (pick : Nat → Nat) (count : Nat)
    (h : p.left = count) : (p.run limit pick count).left = 0 := by
  induction count generalizing p with
  | zero => exact h
  | succ n ih =>
    apply ih
    have hrunning := fill_running p hlimit (by omega)
    have hend := endOne_left (p.fill limit) (pick n) hrunning
    rw [fill_left] at hend
    omega

end Pool

theorem completions_perm {α : Type} (limit : Nat) (pick : Nat → Nat) (tasks : List α) :
    (completions limit pick tasks).Perm tasks := by
  let p := (Pool.new tasks).run (max limit 1) pick tasks.length
  have hleft : p.left = 0 :=
    Pool.run_left _ (by omega) pick tasks.length (by simp [Pool.left, Pool.new])
  -- Where no task is left, all of them have ended.
  have hended : p.all = p.ended := by
    rw [Pool.left, Nat.add_eq_zero_iff, List.length_eq_zero_iff, List.length_eq_zero_iff] at hleft
    rw [Pool.all, hleft.1, hleft.2, List.append_nil, List.append_nil]
  refine (List.reverse_perm p.ended).trans ?_
  rw [← hended]
  exact Pool.run_all _ _ pick tasks.length

end TourMap
