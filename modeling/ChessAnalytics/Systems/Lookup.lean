import Mathlib.Data.Nat.Bitwise
import Mathlib.Data.List.Nodup

/-! Tables that are filled entry by entry and read under numbers put together from bits. -/
namespace ChessAnalytics.Systems

section
variable {α : Type} {holds : α → Bool} {xs : List α}

/-- The number whose bits say which of the items pass, the first item in the lowest bit. -/
def gather (holds : α → Bool) : List α → Nat
  | [] => 0
  | x :: xs => (holds x).toNat + 2 * gather holds xs

theorem gather_lt (holds : α → Bool) (xs : List α) : gather holds xs < 2 ^ xs.length := by
  induction xs with
  | nil => simp [gather]
  | cons x xs ih =>
    have hbit := Bool.toNat_le (holds x)
    rw [gather, List.length_cons, Nat.pow_succ]
    omega

theorem testBit_gather (k : Nat) : (gather holds xs).testBit k = (xs[k]?).any holds := by
  induction xs generalizing k with
  | nil => simp [gather]
  | cons x xs ih =>
    have hbit := Bool.toNat_le (holds x)
    cases k with
    | zero =>
      rw [gather, Nat.testBit_zero, List.getElem?_cons_zero, Option.any_some]
      cases holds x <;> simp
    | succ k =>
      have hhalf : ((holds x).toNat + 2 * gather holds xs) / 2 = gather holds xs := by omega
      rw [gather, Nat.testBit_succ, hhalf, ih, List.getElem?_cons_succ]

theorem gather_congr {holds' : α → Bool} (h : ∀ x ∈ xs, holds x = holds' x) : gather holds xs = gather holds' xs := by
  induction xs with
  | nil => rfl
  | cons x xs ih => rw [gather, gather, h x (List.mem_cons_self ..), ih (fun y hy => h y (List.mem_cons_of_mem _ hy))]

end

section
variable {ι β : Type} {key : ι → Nat} {value : ι → β} {clash : β → β → Bool}

/-- The entries are written in their order, unless one clashes with what it would replace. -/
def fill (key : ι → Nat) (value : ι → β) (clash : β → β → Bool) : List ι → List β → Option (List β)
  | [], table => some table
  | i :: is, table =>
    if (table[key i]?).any (clash · (value i)) then none else fill key value clash is (table.set (key i) (value i))

theorem fill_ne_none (h : ∀ x y, clash x y = false) (is : List ι) : ∀ table, fill key value clash is table ≠ none := by
  induction is with
  | nil => exact fun _ => Option.some_ne_none _
  | cons i is ih =>
    intro table
    have hnone : (table[key i]?).any (clash · (value i)) = false := by
      cases table[key i]? <;> simp [h]
    rw [fill, hnone, if_neg Bool.false_ne_true]
    exact ih _

/-- When entries that do not clash agree, none of them is lost. -/
theorem fill_get (hagree : ∀ i j, key i = key j → clash (value i) (value j) = false → value i = value j) (is : List ι) :
    ∀ (table table' : List β) (written : ι → Prop), (∀ i ∈ is, key i < table.length) →
      (∀ i, written i → table[key i]? = some (value i)) → fill key value clash is table = some table' →
      ∀ i, written i ∨ i ∈ is → table'[key i]? = some (value i) := by
  induction is with
  | nil =>
    intro table table' written _ hwritten h i hi
    obtain rfl := Option.some_inj.mp h
    exact hwritten i (hi.resolve_right (by simp))
  | cons j is ih =>
    intro table table' written hkeys hwritten h i hi
    rw [fill] at h
    split at h
    · cases h
    · rename_i hclash
      refine ih _ table' (fun i => written i ∨ i = j) ?_ ?_ h i ?_
      · intro i hi
        rw [List.length_set]
        exact hkeys i (List.mem_cons_of_mem _ hi)
      · rintro i (hi | rfl)
        · rw [List.getElem?_set]
          split
          · rename_i hkey
            have hentry := hwritten i hi
            rw [← hkey] at hentry
            rw [hentry, Option.any_some, Bool.not_eq_true] at hclash
            rw [if_pos (hkeys j (List.mem_cons_self ..)), hagree i j hkey.symm hclash]
          · exact hwritten i hi
        · rw [List.getElem?_set_self (hkeys i (List.mem_cons_self ..))]
      · rcases hi with hi | hi
        · exact .inl (.inl hi)
        · rcases List.mem_cons.mp hi with rfl | hi
          · exact .inl (.inr rfl)
          · exact .inr hi

end

end ChessAnalytics.Systems
