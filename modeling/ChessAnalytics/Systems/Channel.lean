import Mathlib.Data.List.ReduceOption

/-! The output of a process: a pipe, a reader thread that moves its items to a queue, and the
end mark the thread leaves there when the pipe is done. -/
namespace ChessAnalytics.Systems

structure Channel (α : Type) where
  pipe : List α := []
  queue : List (Option α) := []
  closed : Bool := false

namespace Channel
variable {α : Type} (c : Channel α)

/-- The items that were written and not yet taken, in their order. -/
def unread : List α := c.queue.reduceOption ++ c.pipe

def write (xs : List α) : Channel α := { c with pipe := c.pipe ++ xs }

/-- One turn of the reader thread, on a pipe that has an item or that has ended. -/
def read (ended : Bool) : Option (Channel α) :=
  match c.pipe with
  | x :: xs => some { c with pipe := xs, queue := c.queue ++ [some x] }
  | [] => if ended ∧ ¬ c.closed then some { c with queue := c.queue ++ [none], closed := true } else none

def take : Option (Option α × Channel α) :=
  match c.queue with
  | x :: xs => some (x, { c with queue := xs })
  | [] => none

variable {c}

@[simp] theorem unread_empty : ({} : Channel α).unread = [] := rfl

theorem unread_write (c : Channel α) (xs : List α) : (c.write xs).unread = c.unread ++ xs := by
  rw [unread, unread, write, List.append_assoc]

theorem unread_read {c' : Channel α} {ended : Bool} (h : c.read ended = some c') : c'.unread = c.unread := by
  rw [read] at h
  split at h
  · rename_i x xs hp
    obtain rfl := Option.some_inj.mp h
    simp [unread, hp, List.reduceOption_append, List.reduceOption_cons_of_some]
  · rename_i hp
    split at h
    · obtain rfl := Option.some_inj.mp h
      simp [unread, hp, List.reduceOption_append, List.reduceOption_cons_of_none]
    · cases h

theorem unread_take {c' : Channel α} {x : Option α} (h : c.take = some (x, c')) :
    c.unread = x.toList ++ c'.unread := by
  rw [take] at h
  split at h
  · rename_i y ys hq
    obtain ⟨rfl, rfl⟩ := Prod.mk.inj (Option.some_inj.mp h)
    cases y <;> simp [unread, hq, List.reduceOption_cons_of_some, List.reduceOption_cons_of_none]
  · cases h

end Channel

/-- The first item with a property, in a list where only the last one has it. -/
theorem eq_last_of_first {α : Type} {P : α → Prop} {xs ys rest : List α} {x y : α} (h : xs ++ x :: rest = ys ++ [y])
    (hx : P x) (hys : ∀ z ∈ ys, ¬ P z) : xs = ys ∧ x = y ∧ rest = [] := by
  rcases List.eq_nil_or_concat rest with rfl | ⟨init, last, rfl⟩
  · obtain ⟨hxs, hxy⟩ := List.append_inj' h rfl
    exact ⟨hxs, List.singleton_inj.mp hxy, rfl⟩
  · rw [List.concat_eq_append, ← List.cons_append, ← List.append_assoc] at h
    obtain ⟨rfl, -⟩ := List.append_inj' h rfl
    exact absurd hx (hys x (by simp))

end ChessAnalytics.Systems
