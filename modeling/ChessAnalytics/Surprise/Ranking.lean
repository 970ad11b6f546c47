import ChessAnalytics.Surprise.Metrics

/-! The metrics of the listed moves in the order of the policy. -/
namespace ChessAnalytics.Surprise

/-- The surprise in bits. An undefined one is above all others. -/
noncomputable def Metrics.bits (m : Metrics) : WithTop ℝ :=
  match m.surprise with
  | some ratio => (Real.logb (2 : Nat) ratio : ℝ)
  | none => ⊤

def topPrior (policy : Policy) : ℚ := (policy.head?.map Prod.snd).getD 0

/-- Distinct moves with priors that are not negative, best prior first, as `query` returns them. -/
structure IsPolicy (policy : Policy) : Prop where
  nonempty : policy ≠ []
  moves : (policy.map Prod.fst).Nodup
  priors : ∀ x ∈ policy, 0 ≤ x.2
  sorted : policy.Pairwise (fun a b => b.2 ≤ a.2)

/-- The metrics of every listed move agree with its place in the policy. -/
structure FollowsPolicy (policy : Policy) : Prop where
  place : ∀ k m p, policy[k]? = some (m, p) →
    (computeSurpriseMetrics policy m).policyRank = some (k + 1) ∧ (computeSurpriseMetrics policy m).policyPrior = some p
  listed : ∀ m, (∃ k ∈ (computeSurpriseMetrics policy m).policyRank, k ≤ policy.length) ↔ ∃ p, (m, p) ∈ policy
  bits : ∀ m p, (m, p) ∈ policy → 0 ≤ (computeSurpriseMetrics policy m).bits ∧
    ((computeSurpriseMetrics policy m).bits = 0 ↔ p = topPrior policy)
  order : ∀ (i j : Nat) (m n : Str) (p q : ℚ), policy[i]? = some (m, p) → policy[j]? = some (n, q) → i < j →
    (computeSurpriseMetrics policy m).bits ≤ (computeSurpriseMetrics policy n).bits

theorem findMove_getElem {policy : Policy} (hmoves : (policy.map Prod.fst).Nodup) {k : Nat} {m : Str} {p : ℚ}
    (h : policy[k]? = some (m, p)) (rank : Nat) : findMove m rank policy = some (rank + k, p) := by
  induction policy generalizing k rank with
  | nil => cases h
  | cons x policy ih =>
    obtain ⟨hx, hrest⟩ := List.nodup_cons.mp hmoves
    cases k with
    | zero =>
      obtain rfl := Option.some_inj.mp h
      rw [findMove, if_pos rfl]
      rfl
    | succ k =>
      have hne : x.1 ≠ m := by
        rintro rfl
        exact hx (List.mem_map.mpr ⟨(x.1, p), List.mem_of_getElem? h, rfl⟩)
      rw [findMove, if_neg hne, ih hrest h, Nat.add_assoc, Nat.add_comm 1 k]

private theorem findMove_absent {policy : Policy} {m : Str} (h : ¬ ∃ p, (m, p) ∈ policy) (rank : Nat) :
    findMove m rank policy = none := by
  refine findMove_none (List.filter_eq_nil_iff.mpr fun x hx hm => h ⟨x.2, ?_⟩) rank
  rw [← of_decide_eq_true hm]
  exact hx

section
variable {policy : Policy} (h : IsPolicy policy)
include h

theorem metrics_getElem {k : Nat} {m : Str} {p : ℚ} (hk : policy[k]? = some (m, p)) :
    computeSurpriseMetrics policy m =
      if p ≤ 0 then notFound policy else ⟨some p, some (k + 1), some (topPrior policy / p)⟩ := by
  have hfind := findMove_getElem h.moves hk 1
  rw [compute_of_find hfind, Nat.add_comm 1 k]
  cases policy with
  | nil => exact absurd rfl h.nonempty
  | cons x policy => rfl

private theorem prior_le_top {m : Str} {p : ℚ} (hp : (m, p) ∈ policy) : p ≤ topPrior policy := by
  cases policy with
  | nil => cases hp
  | cons x policy =>
    rcases List.mem_cons.mp hp with rfl | hp
    · exact le_rfl
    · exact (List.pairwise_cons.mp h.sorted).1 _ hp

private theorem bits_getElem {k : Nat} {m : Str} {p : ℚ} (hk : policy[k]? = some (m, p)) (hp : 0 < p) :
    (computeSurpriseMetrics policy m).bits = (Real.logb 2 ((topPrior policy / p : ℚ)) : ℝ) := by
  rw [metrics_getElem h hk, if_neg (not_le.mpr hp)]
  rfl

private theorem listed_iff (hpos : ∀ x ∈ policy, 0 < x.2) (m : Str) :
    (∃ k ∈ (computeSurpriseMetrics policy m).policyRank, k ≤ policy.length) ↔ ∃ p, (m, p) ∈ policy := by
  constructor
  · rintro ⟨k, hk, hle⟩
    by_contra habsent
    have hnone := findMove_absent habsent 1
    cases policy with
    | nil => exact h.nonempty rfl
    | cons x policy =>
      rw [computeSurpriseMetrics, hnone] at hk
      have hrank : (x :: policy).length + 1 = k := Option.some_inj.mp hk
      omega
  · rintro ⟨p, hp⟩
    obtain ⟨k, hk⟩ := List.mem_iff_getElem?.mp hp
    refine ⟨k + 1, ?_, (List.getElem?_eq_some_iff.mp hk).1⟩
    rw [metrics_getElem h hk, if_neg (not_le.mpr (hpos _ hp))]
    rfl

private theorem bits_listed (hpos : ∀ x ∈ policy, 0 < x.2) {m : Str} {p : ℚ} (hp : (m, p) ∈ policy) :
    0 ≤ (computeSurpriseMetrics policy m).bits ∧ ((computeSurpriseMetrics policy m).bits = 0 ↔ p = topPrior policy) := by
  obtain ⟨k, hk⟩ := List.mem_iff_getElem?.mp hp
  have hp0 : 0 < p := hpos _ hp
  have htop := prior_le_top h hp
  have hratio : (1 : ℝ) ≤ (topPrior policy / p : ℚ) := by
    have : 1 ≤ topPrior policy / p := (one_le_div hp0).mpr htop
    exact_mod_cast this
  rw [bits_getElem h hk hp0]
  refine ⟨?_, ?_⟩
  · exact_mod_cast Real.logb_nonneg one_lt_two hratio
  · have hone : p = topPrior policy ↔ ((topPrior policy / p : ℚ) : ℝ) = 1 := by
      rw [eq_comm, ← div_eq_one_iff_eq hp0.ne']
      norm_cast
    rw [hone, WithTop.coe_eq_zero]
    refine ⟨fun hzero => ?_, fun heq => by rw [heq, Real.logb_one]⟩
    by_contra hne
    exact (Real.logb_pos one_lt_two (lt_of_le_of_ne hratio (Ne.symm hne))).ne' hzero

private theorem bits_order (hpos : ∀ x ∈ policy, 0 < x.2) {i j : Nat} {m n : Str} {p q : ℚ}
    (hi : policy[i]? = some (m, p)) (hj : policy[j]? = some (n, q)) (hij : i < j) :
    (computeSurpriseMetrics policy m).bits ≤ (computeSurpriseMetrics policy n).bits := by
  have hp : 0 < p := hpos _ (List.mem_of_getElem? hi)
  have hq : 0 < q := hpos _ (List.mem_of_getElem? hj)
  have hqp : q ≤ p := by
    obtain ⟨hilt, hieq⟩ := List.getElem?_eq_some_iff.mp hi
    obtain ⟨hjlt, hjeq⟩ := List.getElem?_eq_some_iff.mp hj
    have := List.pairwise_iff_getElem.mp h.sorted i j hilt hjlt hij
    rwa [hieq, hjeq] at this
  have htop : 0 < topPrior policy := hp.trans_le (prior_le_top h (List.mem_of_getElem? hi))
  have hratio : (0 : ℝ) < (topPrior policy / p : ℚ) := by exact_mod_cast div_pos htop hp
  have hle : ((topPrior policy / p : ℚ) : ℝ) ≤ (topPrior policy / q : ℚ) := by
    exact_mod_cast div_le_div_of_nonneg_left htop.le hq hqp
  rw [bits_getElem h hi hp, bits_getElem h hj hq, WithTop.coe_le_coe]
  exact Real.logb_le_logb_of_le one_lt_two hratio hle

/-- The metrics follow the policy exactly if no prior of it is zero: a listed move whose prior is
zero is reported as not listed. -/
theorem followsPolicy_iff : FollowsPolicy policy ↔ ∀ x ∈ policy, 0 < x.2 := by
  constructor
  · intro hfollows x hx
    obtain ⟨k, hk⟩ := List.mem_iff_getElem?.mp hx
    by_contra hzero
    have hrank := (hfollows.place k x.1 x.2 hk).1
    rw [metrics_getElem h hk, if_pos (not_lt.mp hzero)] at hrank
    have hlast : policy.length + 1 = k + 1 := Option.some_inj.mp hrank
    have hlt := (List.getElem?_eq_some_iff.mp hk).1
    omega
  · intro hpos
    refine ⟨fun k m p hk => ?_, listed_iff h hpos, fun m p hp => bits_listed h hpos hp, fun i j m n p q => bits_order h hpos⟩
    rw [metrics_getElem h hk, if_neg (not_le.mpr (hpos _ (List.mem_of_getElem? hk)))]
    exact ⟨rfl, rfl⟩

end

private theorem isPolicy_pair {m n : Str} (hmn : m ≠ n) {p q : ℚ} (hq : 0 ≤ q) (hqp : q ≤ p) : IsPolicy [(m, p), (n, q)] where
  nonempty := by simp
  moves := by simp [hmn]
  priors := by simp [hq, hq.trans hqp]
  sorted := by simp [hqp]

theorem followsPolicy_two_moves : FollowsPolicy [("e2e4".toList, 1 / 2), ("d2d4".toList, 1 / 4)] :=
  (followsPolicy_iff (isPolicy_pair (by decide) (by norm_num) (by norm_num))).mpr (by norm_num)

/-- lc0 prints the prior of the second move as 0.00%. -/
theorem zero_prior_unlisted : IsPolicy [("e2e4".toList, 1 / 2), ("h2h4".toList, 0)] ∧
    ¬ FollowsPolicy [("e2e4".toList, 1 / 2), ("h2h4".toList, 0)] := by
  refine ⟨isPolicy_pair (by decide) le_rfl (by norm_num), fun hfollows => ?_⟩
  have hrank := (hfollows.place 1 "h2h4".toList 0 rfl).1
  revert hrank
  decide +kernel

end ChessAnalytics.Surprise
