import Mathlib.Algebra.Order.Group.Nat

/-! Loops that have to end: a clock that runs up to a limit, and a supply that every reset of the
clock draws on. -/
namespace ChessAnalytics.Systems

section
variable {σ : Type}

/-- `while not done: body`, for as long as the fuel lasts. A body that fails leaves the loop without
a result. -/
def whileLoop (done : σ → Bool) (body : σ → Option σ) : Nat → σ → Option σ
  | 0, s => if done s then some s else none
  | fuel + 1, s => if done s then some s else (body s).bind (whileLoop done body fuel)

variable {done : σ → Bool} {body : σ → Option σ}

/-- A loop exits when its body keeps an invariant and lowers a rank, and the rank it starts with is
covered by the fuel. -/
theorem whileLoop_exits {I : σ → Prop} {rank : σ → Nat}
    (step : ∀ s, I s → done s = false → ∃ t, body s = some t ∧ I t ∧ rank t < rank s) {fuel : Nat} {s : σ} (hI : I s)
    (hfuel : rank s ≤ fuel) : ∃ t, whileLoop done body fuel s = some t ∧ I t ∧ done t = true := by
  induction fuel generalizing s with
  | zero =>
    cases hdone : done s with
    | true => exact ⟨s, by rw [whileLoop, if_pos hdone], hI, hdone⟩
    | false =>
      obtain ⟨t, -, -, hlt⟩ := step s hI hdone
      omega
  | succ fuel ih =>
    cases hdone : done s with
    | true => exact ⟨s, by rw [whileLoop, if_pos hdone], hI, hdone⟩
    | false =>
      obtain ⟨t, hbody, ht, hlt⟩ := step s hI hdone
      obtain ⟨u, hloop, hu⟩ := ih ht (by omega)
      refine ⟨u, ?_, hu⟩
      rw [whileLoop, hdone, if_neg Bool.false_ne_true, hbody]
      exact hloop

end

/-- The steps that are left at most: one full run of the clock for each unit of the supply, and the
rest of the run that has begun. -/
def stepsLeft (limit supply clock : Nat) : Nat := limit * supply + (limit - clock)

theorem stepsLeft_tick {limit supply supply' clock : Nat} (hclock : clock < limit) (hsupply : supply' ≤ supply) :
    stepsLeft limit supply' (clock + 1) < stepsLeft limit supply clock := by
  have hmul : limit * supply' ≤ limit * supply := Nat.mul_le_mul_left _ hsupply
  rw [stepsLeft, stepsLeft]
  omega

theorem stepsLeft_reset {limit supply supply' clock : Nat} (hclock : clock < limit) (hsupply : supply' < supply) :
    stepsLeft limit supply' 0 < stepsLeft limit supply clock := by
  have hmul : limit * (supply' + 1) ≤ limit * supply := Nat.mul_le_mul_left _ hsupply
  rw [Nat.mul_succ] at hmul
  rw [stepsLeft, stepsLeft]
  omega

end ChessAnalytics.Systems
