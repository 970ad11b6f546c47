import Mathlib.Data.List.Basic

/-! A loop that reads one item after the other and decides after each whether it is done. -/
namespace ChessAnalytics.Systems

/-- The state of the loop and what one more item does to it: go on, or end with a result. -/
structure Reader (Item σ α : Type) where
  init : σ
  feed : σ → Item → σ ⊕ α

namespace Reader
variable {Item σ α : Type} (r : Reader Item σ α)

/-- Read until the loop ends: its result and the unread items. -/
def runFrom : σ → List Item → Option (α × List Item)
  | _, [] => none
  | s, x :: xs =>
    match r.feed s x with
    | .inl s' => runFrom s' xs
    | .inr a => some (a, xs)

def run (xs : List Item) : Option (α × List Item) := r.runFrom r.init xs

/-- The state after items that all let the loop go on. -/
def staysFrom : σ → List Item → Option σ
  | s, [] => some s
  | s, x :: xs =>
    match r.feed s x with
    | .inl s' => staysFrom s' xs
    | .inr _ => none

variable {r}

@[simp] theorem staysFrom_nil (s : σ) : r.staysFrom s [] = some s := rfl

theorem staysFrom_cons_inl {s s' : σ} {x : Item} {xs : List Item} (h : r.feed s x = .inl s') :
    r.staysFrom s (x :: xs) = r.staysFrom s' xs := by simp [staysFrom, h]

theorem runFrom_cons_inl {s s' : σ} {x : Item} {xs : List Item} (h : r.feed s x = .inl s') :
    r.runFrom s (x :: xs) = r.runFrom s' xs := by simp [runFrom, h]

theorem runFrom_cons_inr {s : σ} {a : α} {x : Item} {xs : List Item} (h : r.feed s x = .inr a) :
    r.runFrom s (x :: xs) = some (a, xs) := by simp [runFrom, h]

theorem runFrom_append {s s' : σ} {xs : List Item} (h : r.staysFrom s xs = some s') (ys : List Item) :
    r.runFrom s (xs ++ ys) = r.runFrom s' ys := by
  induction xs generalizing s with
  | nil => rw [staysFrom_nil, Option.some_inj] at h; rw [h, List.nil_append]
  | cons x xs ih =>
    rw [staysFrom] at h
    split at h
    · rename_i t ht
      rw [List.cons_append, runFrom_cons_inl ht]
      exact ih h
    · cases h

/-- The loop goes on behind this item, whatever was read before. -/
def Passes (r : Reader Item σ α) (x : Item) : Prop := ∀ s, ∃ s', r.feed s x = .inl s'

/-- The loop ends at this item, whatever was read before. -/
def Ends (r : Reader Item σ α) (x : Item) : Prop := ∀ s, ∃ a, r.feed s x = .inr a

theorem run_passes {s : σ} {xs : List Item} (h : ∀ x ∈ xs, r.Passes x) : r.runFrom s xs = none := by
  induction xs generalizing s with
  | nil => rfl
  | cons x xs ih =>
    obtain ⟨s', hs⟩ := h x (by simp) s
    rw [runFrom_cons_inl hs]
    exact ih (fun y hy => h y (List.mem_cons_of_mem _ hy))

theorem run_ends {s : σ} {xs : List Item} {y : Item} (h : ∀ x ∈ xs, r.Passes x) (hy : r.Ends y) :
    ∃ t a, r.feed t y = .inr a ∧ r.runFrom s (xs ++ [y]) = some (a, []) := by
  induction xs generalizing s with
  | nil =>
    obtain ⟨a, ha⟩ := hy s
    exact ⟨s, a, ha, runFrom_cons_inr ha⟩
  | cons x xs ih =>
    obtain ⟨s', hs⟩ := h x (by simp) s
    rw [List.cons_append, runFrom_cons_inl hs]
    exact ih (fun z hz => h z (List.mem_cons_of_mem _ hz))

/-- The loop has ended behind a prefix only if the prefix reaches the ending item. -/
theorem isSome_run_iff {s : σ} {xs p : List Item} {y : Item} (h : ∀ x ∈ xs, r.Passes x) (hy : r.Ends y)
    (hp : p <+: xs ++ [y]) : (r.runFrom s p).isSome ↔ p = xs ++ [y] := by
  rcases List.prefix_concat_iff.mp hp with rfl | hp
  · obtain ⟨t, a, -, hrun⟩ := run_ends (s := s) h hy
    simp [hrun]
  · rw [run_passes (fun x hx => h x (hp.subset hx))]
    simp only [Option.isSome_none, Bool.false_eq_true, false_iff]
    rintro rfl
    have := hp.length_le
    simp only [List.length_append, List.length_singleton] at this
    omega

end Reader
end ChessAnalytics.Systems
