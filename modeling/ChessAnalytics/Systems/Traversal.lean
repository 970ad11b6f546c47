import Mathlib.Data.List.Forall2

/-! Computations that may raise: one behind another, and a loop over a list. -/
namespace ChessAnalytics.Systems

section
variable {α β ε : Type} {f : α → Except ε β} {xs : List α}

/-- Of two computations, the second of which uses the result of the first, both have to succeed. -/
theorem bind_ok {x : Except ε α} {g : α → Except ε β} {y : β} (h : (x >>= g) = .ok y) : ∃ a, x = .ok a ∧ g a = .ok y := by
  cases x with
  | error e => cases h
  | ok a => exact ⟨a, rfl, h⟩

theorem mapM_forall₂ {R : α → β → Prop} (h : ∀ x ∈ xs, ∃ y, f x = .ok y ∧ R x y) :
    ∃ ys, xs.mapM f = .ok ys ∧ List.Forall₂ R xs ys := by
  induction xs with
  | nil => exact ⟨[], rfl, .nil⟩
  | cons x xs ih =>
    obtain ⟨y, hy, hxy⟩ := h x List.mem_cons_self
    obtain ⟨ys, hys, hrest⟩ := ih fun z hz => h z (List.mem_cons_of_mem _ hz)
    refine ⟨y :: ys, ?_, .cons hxy hrest⟩
    rw [List.mapM_cons, hy, hys]
    rfl

theorem mapM_succeeds (h : ∀ x ∈ xs, ∃ y, f x = .ok y) : ∃ ys, xs.mapM f = .ok ys := by
  obtain ⟨ys, hys, -⟩ := mapM_forall₂ (R := fun _ _ => True) fun x hx => (h x hx).imp fun _ hy => ⟨hy, trivial⟩
  exact ⟨ys, hys⟩

theorem mapM_ok {g : α → β} (h : ∀ x ∈ xs, f x = .ok (g x)) : xs.mapM f = .ok (xs.map g) := by
  obtain ⟨ys, hys, hall⟩ := mapM_forall₂ (R := fun x y => g x = y) fun x hx => ⟨g x, h x hx, rfl⟩
  have heq : List.Forall₂ Eq (xs.map g) ys := List.forall₂_map_left_iff.mpr hall
  rw [List.forall₂_eq_eq_eq] at heq
  rw [hys, heq]

/-- Every element of a list that has been gone through has its result. -/
theorem mapM_get {ys : List β} (h : xs.mapM f = .ok ys) {i : Nat} {x : α} (hx : xs[i]? = some x) :
    ∃ y, ys[i]? = some y ∧ f x = .ok y := by
  induction xs generalizing ys i with
  | nil => cases hx
  | cons z xs ih =>
    rw [List.mapM_cons] at h
    obtain ⟨y, hy, h⟩ := bind_ok h
    obtain ⟨rest, hrest, h⟩ := bind_ok h
    obtain rfl := Except.ok.inj h
    cases i with
    | zero =>
      obtain rfl := Option.some_inj.mp hx
      exact ⟨y, rfl, hy⟩
    | succ i => exact ih hrest hx

/-- When every element has its item, the items are where their elements are. -/
theorem getElem?_filterMap {f : α → Option β} {xs : List α} (h : ∀ x ∈ xs, f x ≠ none) (i : Nat) :
    (xs.filterMap f)[i]? = xs[i]?.bind f := by
  induction xs generalizing i with
  | nil => rfl
  | cons x xs ih =>
    obtain ⟨y, hy⟩ := Option.ne_none_iff_exists'.mp (h x List.mem_cons_self)
    rw [List.filterMap_cons_some hy]
    cases i with
    | zero => exact hy.symm
    | succ i => exact ih (fun z hz => h z (List.mem_cons_of_mem _ hz)) i

end

section
variable {α β : Type} {R : α → β → Prop} {active : α → Bool}

/-- When each place of a list holds one thing at most and no two places hold the same, the places
that hold something are as many as the things. -/
theorem countP_things (cs : List α) (hnodup : cs.Nodup) (hactive : ∀ c ∈ cs, active c = true ↔ ∃ x, R c x)
    (hone : ∀ c ∈ cs, ∀ x y, R c x → R c y → x = y) (happart : ∀ c ∈ cs, ∀ c' ∈ cs, ∀ x, R c x → R c' x → c = c') :
    ∃ xs : List β, xs.Nodup ∧ xs.length = cs.countP active ∧ ∀ x, x ∈ xs ↔ ∃ c ∈ cs, R c x := by
  induction cs with
  | nil => exact ⟨[], .nil, rfl, by simp⟩
  | cons c cs ih =>
    obtain ⟨hnew, hnodup⟩ := List.nodup_cons.mp hnodup
    obtain ⟨xs, hxs, hlength, hmem⟩ := ih hnodup (fun c' hc' => hactive c' (List.mem_cons_of_mem _ hc'))
      (fun c' hc' => hone c' (List.mem_cons_of_mem _ hc'))
      (fun c' hc' d hd => happart c' (List.mem_cons_of_mem _ hc') d (List.mem_cons_of_mem _ hd))
    have hhead := hactive c List.mem_cons_self
    by_cases hc : active c = true
    · obtain ⟨x, hx⟩ := hhead.mp hc
      refine ⟨x :: xs, List.nodup_cons.mpr ⟨?_, hxs⟩, ?_, fun y => ?_⟩
      · rw [hmem]
        rintro ⟨c', hc', hx'⟩
        rw [happart c List.mem_cons_self c' (List.mem_cons_of_mem _ hc') x hx hx'] at hnew
        exact hnew hc'
      · rw [List.countP_cons, if_pos hc, List.length_cons, hlength]
      · rw [List.mem_cons, hmem, List.exists_mem_cons_iff]
        apply or_congr_left
        constructor
        · rintro rfl
          exact hx
        · exact fun hy => hone c List.mem_cons_self y x hy hx
    · refine ⟨xs, hxs, ?_, fun y => ?_⟩
      · rw [List.countP_cons, if_neg hc, hlength, Nat.add_zero]
      · rw [hmem, List.exists_mem_cons_iff, or_iff_right]
        exact fun hy => hc (hhead.mpr ⟨y, hy⟩)

/-- Things of which no three are different are two at most, and two when two are different. -/
theorem length_two {xs : List β} (hnodup : xs.Nodup) (hfew : ∀ x ∈ xs, ∀ y ∈ xs, ∀ z ∈ xs, x = y ∨ x = z ∨ y = z) :
    xs.length ≤ 2 ∧ (xs.length = 2 ↔ ∃ x ∈ xs, ∃ y ∈ xs, x ≠ y) := by
  match xs with
  | [] => simp
  | [x] => simp
  | [x, y] =>
    have hne : x ≠ y := by simpa using hnodup
    simp [hne]
  | x :: y :: z :: rest =>
    have hequal := hfew x (by simp) y (by simp) z (by simp)
    simp only [List.nodup_cons, List.mem_cons, not_or] at hnodup
    rcases hequal with h | h | h
    · exact absurd h hnodup.1.1
    · exact absurd h hnodup.1.2.1
    · exact absurd h hnodup.2.1.1

end

end ChessAnalytics.Systems
