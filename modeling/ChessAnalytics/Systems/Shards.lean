import Mathlib

/-! Work that is cut into consecutive blocks, and a table that is put together again from the
pieces of the blocks in the order of some key. -/
namespace ChessAnalytics.Systems

/-- Consecutive blocks of the given lengths: where each one starts and how long it is. -/
def blocksFrom : Nat → List Nat → List (Nat × Nat)
  | _, [] => []
  | start, n :: ns => (start, n) :: blocksFrom (start + n) ns

theorem blocksFrom_bounds {start : Nat} {ns : List Nat} {b : Nat × Nat} (h : b ∈ blocksFrom start ns) :
    start ≤ b.1 ∧ b.1 + b.2 ≤ start + ns.sum := by
  induction ns generalizing start with
  | nil => cases h
  | cons n ns ih =>
    rw [List.sum_cons]
    rcases List.mem_cons.mp h with rfl | h
    · exact ⟨le_refl _, by omega⟩
    · have := ih h
      omega

theorem blocksFrom_ordered (start : Nat) (ns : List Nat) :
    (blocksFrom start ns).Pairwise (fun a b => a.1 + a.2 ≤ b.1) := by
  induction ns generalizing start with
  | nil => exact List.Pairwise.nil
  | cons n ns ih => exact List.pairwise_cons.mpr ⟨fun b hb => (blocksFrom_bounds hb).1, ih (start + n)⟩

/-- Two blocks are the same, or one ends before the other starts. -/
theorem blocksFrom_apart {start : Nat} {ns : List Nat} {a b : Nat × Nat} (ha : a ∈ blocksFrom start ns)
    (hb : b ∈ blocksFrom start ns) : a = b ∨ a.1 + a.2 ≤ b.1 ∨ b.1 + b.2 ≤ a.1 :=
  List.Pairwise.forall_of_forall_of_flip (R := fun a b => a = b ∨ a.1 + a.2 ≤ b.1 ∨ b.1 + b.2 ≤ a.1)
    (fun _ _ => .inl rfl) ((blocksFrom_ordered start ns).imp fun h => .inr (.inl h))
    ((blocksFrom_ordered start ns).imp fun h => .inr (.inr h)) ha hb

theorem length_mem_blocksFrom {start : Nat} {ns : List Nat} {b : Nat × Nat} (h : b ∈ blocksFrom start ns) : b.2 ∈ ns := by
  induction ns generalizing start with
  | nil => cases h
  | cons n ns ih =>
    rcases List.mem_cons.mp h with rfl | h
    · exact List.mem_cons_self
    · exact List.mem_cons_of_mem _ (ih h)

section
variable {α β κ : Type} (pieces : α → List β)

def contributing (l : List α) : List α := l.filter (fun a => !(pieces a).isEmpty)

theorem mem_contributing {l : List α} {a : α} : a ∈ contributing pieces l ↔ a ∈ l ∧ pieces a ≠ [] := by
  simp [contributing]

theorem flatMap_contributing (l : List α) : (contributing pieces l).flatMap pieces = l.flatMap pieces := by
  induction l with
  | nil => rfl
  | cons a l ih =>
    by_cases ha : pieces a = []
    · rw [contributing, List.filter_cons_of_neg (by simp [ha]), List.flatMap_cons, ha, List.nil_append]
      exact ih
    · rw [contributing, List.filter_cons_of_pos (by simp [ha]), List.flatMap_cons, List.flatMap_cons]
      exact congrArg _ ih

/-- When no item is in the pieces of two blocks, the joined pieces determine the contributing
blocks and their order. -/
theorem flatMap_eq_iff {l l' : List α} (hdisjoint : ∀ a ∈ l, ∀ b ∈ l', ∀ x ∈ pieces a, x ∈ pieces b → a = b) :
    l.flatMap pieces = l'.flatMap pieces ↔ contributing pieces l = contributing pieces l' := by
  constructor
  · rw [← flatMap_contributing pieces l, ← flatMap_contributing pieces l']
    have hl : ∀ a ∈ contributing pieces l, a ∈ l ∧ pieces a ≠ [] := fun a => (mem_contributing pieces).mp
    have hl' : ∀ a ∈ contributing pieces l', a ∈ l' ∧ pieces a ≠ [] := fun a => (mem_contributing pieces).mp
    generalize contributing pieces l = u at hl
    generalize contributing pieces l' = v at hl'
    intro h
    induction u generalizing v with
    | nil =>
      cases v with
      | nil => rfl
      | cons b v => exact absurd (List.append_eq_nil_iff.mp h.symm).1 (hl' b List.mem_cons_self).2
    | cons a u ih =>
      cases v with
      | nil => exact absurd (List.append_eq_nil_iff.mp h).1 (hl a List.mem_cons_self).2
      | cons b v =>
        rw [List.flatMap_cons, List.flatMap_cons] at h
        obtain ⟨x, xs, hx⟩ := List.exists_cons_of_ne_nil (hl a List.mem_cons_self).2
        obtain ⟨y, ys, hy⟩ := List.exists_cons_of_ne_nil (hl' b List.mem_cons_self).2
        have hxy : x = y := by
          rw [hx, hy] at h
          exact (List.cons.inj h).1
        have hab : a = b := hdisjoint a (hl a List.mem_cons_self).1 b (hl' b List.mem_cons_self).1 x
          (by simp [hx]) (by simp [hy, hxy])
        rw [hab] at h ⊢
        exact congrArg _ (ih (fun c hc => hl c (List.mem_cons_of_mem _ hc)) v
          (fun c hc => hl' c (List.mem_cons_of_mem _ hc)) (List.append_cancel_left h))
  · intro h
    rw [← flatMap_contributing pieces l, h, flatMap_contributing]

/-- The pieces of the blocks that were kept, joined in the order of a key, give the whole exactly
when every contributing block was kept and the contributing blocks are in the order of the key. -/
theorem collected_iff [LinearOrder κ] {key : α → κ} {kept : α → Bool} {l sorted : List α}
    (hdisjoint : ∀ a ∈ l, ∀ b ∈ l, ∀ x ∈ pieces a, x ∈ pieces b → a = b)
    (hperm : sorted.Perm (l.filter kept)) (hsorted : sorted.Pairwise (fun a b => key a < key b)) :
    sorted.flatMap pieces = l.flatMap pieces ↔
      (∀ a ∈ l, pieces a ≠ [] → kept a = true) ∧ (contributing pieces l).Pairwise (fun a b => key a < key b) := by
  have hmem {a : α} : a ∈ sorted ↔ a ∈ l ∧ kept a = true := by rw [hperm.mem_iff, List.mem_filter]
  rw [flatMap_eq_iff pieces (fun a ha b hb => hdisjoint a (hmem.mp ha).1 b hb)]
  constructor
  · intro h
    refine ⟨fun a ha hne => ?_, ?_⟩
    · have : a ∈ contributing pieces sorted := h ▸ (mem_contributing pieces).mpr ⟨ha, hne⟩
      exact (hmem.mp ((mem_contributing pieces).mp this).1).2
    · rw [← h]
      exact hsorted.filter _
  · rintro ⟨hkept, hordered⟩
    have hall : (contributing pieces sorted).Perm (contributing pieces l) := by
      refine (hperm.filter _).trans (List.Perm.of_eq ?_)
      rw [List.filter_filter, contributing]
      refine List.filter_congr fun a ha => ?_
      by_cases hne : pieces a = []
      · simp [hne]
      · simp [hkept a ha hne]
    exact hall.eq_of_pairwise (fun a b _ _ hab hba => absurd hab (lt_asymm hba)) (hsorted.filter _) hordered

end

end ChessAnalytics.Systems
