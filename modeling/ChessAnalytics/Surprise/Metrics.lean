import ChessAnalytics.Strings.Basic

/-! The surprise metrics of a move: its place in the policy that lc0 gave a position. -/
namespace ChessAnalytics.Surprise

abbrev Policy := List (Str × ℚ)

/-- The dictionary of `compute_surprise_metrics`. The surprise is kept as the exact ratio whose
binary logarithm the program stores. -/
structure Metrics where
  policyPrior : Option ℚ
  policyRank : Option Nat
  surprise : Option ℚ
  deriving DecidableEq

def Metrics.absent : Metrics := ⟨none, none, none⟩

/-- The search loop over `enumerate(policy, start)`. -/
def findMove (moveUci : Str) : Nat → Policy → Option (Nat × ℚ)
  | _, [] => none
  | rank, (mv, p) :: policy => if mv = moveUci then some (rank, p) else findMove moveUci (rank + 1) policy

/-- What is reported of a move that was not found, or was found without a positive prior. -/
def notFound (policy : Policy) : Metrics := ⟨some 0, some (policy.length + 1), none⟩

def computeSurpriseMetrics (policy : Policy) (moveUci : Str) : Metrics :=
  match policy with
  | [] => ⟨some 0, none, none⟩
  | (_, topPrior) :: _ =>
    match findMove moveUci 1 policy with
    | none => notFound policy
    | some (rank, movePrior) =>
      if movePrior ≤ 0 then notFound policy
      else ⟨some movePrior, some rank, some (topPrior / movePrior)⟩

/-- The move is found in the policy under the prior. -/
def Found (policy : Policy) (moveUci : Str) (prior : ℚ) : Prop :=
  (computeSurpriseMetrics policy moveUci).policyPrior = some prior ∧
    ∃ k ∈ (computeSurpriseMetrics policy moveUci).policyRank, k ≤ policy.length

def entriesOf (policy : Policy) (moveUci : Str) : Policy := policy.filter (fun x => x.1 = moveUci)

theorem findMove_none {moveUci : Str} {policy : Policy} (h : entriesOf policy moveUci = []) (rank : Nat) :
    findMove moveUci rank policy = none := by
  induction policy generalizing rank with
  | nil => rfl
  | cons x policy ih =>
    by_cases hx : x.1 = moveUci
    · rw [entriesOf, List.filter_cons_of_pos (by simpa using hx)] at h
      cases h
    · rw [entriesOf, List.filter_cons_of_neg (by simpa using hx)] at h
      rw [findMove, if_neg hx]
      exact ih h (rank + 1)

theorem findMove_some {moveUci : Str} {policy : Policy} {x : Str × ℚ} {others : Policy}
    (h : entriesOf policy moveUci = x :: others) (rank : Nat) :
    ∃ k < policy.length, findMove moveUci rank policy = some (rank + k, x.2) := by
  induction policy generalizing rank with
  | nil => cases h
  | cons y policy ih =>
    by_cases hy : y.1 = moveUci
    · rw [entriesOf, List.filter_cons_of_pos (by simpa using hy)] at h
      obtain rfl := (List.cons.inj h).1
      exact ⟨0, Nat.succ_pos _, by rw [findMove, if_pos hy]; rfl⟩
    · rw [entriesOf, List.filter_cons_of_neg (by simpa using hy)] at h
      obtain ⟨k, hk, hfind⟩ := ih h (rank + 1)
      refine ⟨k + 1, Nat.succ_lt_succ hk, ?_⟩
      rw [findMove, if_neg hy, hfind, Nat.add_assoc, Nat.add_comm 1 k]

theorem compute_of_find {policy : Policy} {moveUci : Str} {rank : Nat} {movePrior : ℚ}
    (h : findMove moveUci 1 policy = some (rank, movePrior)) :
    computeSurpriseMetrics policy moveUci =
      if movePrior ≤ 0 then notFound policy
      else ⟨some movePrior, some rank, policy.head?.map (fun x => x.2 / movePrior)⟩ := by
  cases policy with
  | nil => cases h
  | cons x policy =>
    rw [computeSurpriseMetrics, h]
    rfl

private theorem not_found_rank (policy : Policy) : ¬ ∃ k ∈ (notFound policy).policyRank, k ≤ policy.length := by
  rintro ⟨k, hk, hle⟩
  have : policy.length + 1 = k := Option.some_inj.mp hk
  omega

theorem not_found_of_absent {policy : Policy} {moveUci : Str} (h : entriesOf policy moveUci = []) (prior : ℚ) :
    ¬ Found policy moveUci prior := by
  rintro ⟨-, hrank⟩
  cases policy with
  | nil =>
    obtain ⟨k, hk, -⟩ := hrank
    cases hk
  | cons x policy =>
    rw [computeSurpriseMetrics, findMove_none h] at hrank
    exact not_found_rank _ hrank

/-- A move with one entry is found exactly when the prior of the entry is positive. -/
theorem found_iff_of_entry {policy : Policy} {moveUci : Str} {prior : ℚ}
    (h : entriesOf policy moveUci = [(moveUci, prior)]) : Found policy moveUci prior ↔ 0 < prior := by
  obtain ⟨k, hk, hfind⟩ := findMove_some h 1
  rw [Found, compute_of_find hfind]
  constructor
  · rintro ⟨-, hrank⟩
    by_contra hprior
    rw [if_pos (not_lt.mp hprior)] at hrank
    exact not_found_rank _ hrank
  · intro hprior
    rw [if_neg (not_le.mpr hprior)]
    exact ⟨rfl, 1 + k, rfl, by omega⟩

theorem mem_of_findMove {policy : Policy} {moveUci : Str} {rank k : Nat} {p : ℚ}
    (h : findMove moveUci rank policy = some (k, p)) : (moveUci, p) ∈ policy := by
  induction policy generalizing rank with
  | nil => cases h
  | cons x policy ih =>
    rw [findMove] at h
    split at h
    · rename_i hx
      obtain ⟨-, rfl⟩ := Prod.mk.inj (Option.some_inj.mp h)
      rw [← hx]
      exact List.mem_cons_self
    · exact List.mem_cons_of_mem _ (ih h)

/-- A surprise is reported with the rank of the move and a positive prior below that of the first. -/
theorem surprise_cases {policy : Policy} {moveUci : Str} {ratio : ℚ}
    (h : ratio ∈ (computeSurpriseMetrics policy moveUci).surprise) :
    ∃ x ∈ policy.head?, ∃ rank p, (moveUci, p) ∈ policy ∧ 0 < p ∧
      computeSurpriseMetrics policy moveUci = ⟨some p, some rank, some (x.2 / p)⟩ := by
  cases policy with
  | nil => cases h
  | cons x policy =>
    cases hfind : findMove moveUci 1 (x :: policy) with
    | none =>
      rw [computeSurpriseMetrics, hfind] at h
      cases h
    | some found =>
      obtain ⟨rank, p⟩ := found
      rw [compute_of_find hfind] at h ⊢
      by_cases hp : p ≤ 0
      · rw [if_pos hp] at h
        cases h
      · rw [if_neg hp]
        exact ⟨x, rfl, rank, p, mem_of_findMove hfind, not_le.mp hp, rfl⟩

theorem ranked_of_surprise {policy : Policy} {moveUci : Str}
    (h : (computeSurpriseMetrics policy moveUci).surprise.isSome = true) :
    (computeSurpriseMetrics policy moveUci).policyRank.isSome = true := by
  obtain ⟨ratio, hratio⟩ := Option.isSome_iff_exists.mp h
  obtain ⟨x, -, rank, p, -, -, hmetrics⟩ := surprise_cases hratio
  rw [hmetrics]
  rfl

theorem surprise_pos {policy : Policy} (hsorted : policy.Pairwise fun a b => b.2 ≤ a.2) {moveUci : Str} {ratio : ℚ}
    (h : ratio ∈ (computeSurpriseMetrics policy moveUci).surprise) : 0 < ratio := by
  obtain ⟨x, hx, rank, p, hmem, hp, hmetrics⟩ := surprise_cases h
  rw [hmetrics] at h
  obtain rfl := Option.some_inj.mp h
  cases policy with
  | nil => cases hx
  | cons y policy =>
    obtain rfl := Option.some_inj.mp hx
    have hle : p ≤ y.2 := by
      rcases List.mem_cons.mp hmem with rfl | hmem
      · exact le_rfl
      · exact (List.pairwise_cons.mp hsorted).1 _ hmem
    exact div_pos (hp.trans_le hle) hp

end ChessAnalytics.Surprise
