import ChessAnalytics.Strings.Scan

/-! Fixed-point numbers: the text that a C++ stream writes, and Python's `float` of it. -/
namespace ChessAnalytics.Strings

/-- `std::setw` fills a field up with blanks on its free side. -/
def setwRight (w : Nat) (s : Str) : Str := List.replicate (w - s.length) ' ' ++ s
def setwLeft (w : Nat) (s : Str) : Str := s ++ List.replicate (w - s.length) ' '

/-- The nearest natural number, and the even one of two nearest. -/
def roundHalfEven (q : NNRat) : Nat :=
  let n := q.num / q.den
  let r := 2 * (q.num % q.den)
  if r < q.den then n else if r > q.den then n + 1 else if n % 2 = 0 then n else n + 1

/-- The digits of `k` units of the last place, with at least one digit before the point. -/
def fixedDigits (d k : Nat) : Str := List.replicate (d + 1 - (showNat k).length) '0' ++ showNat k

/-- `k` units of the last of `d` places, with `d > 0`. -/
def fixedUnits (d k : Nat) : Str :=
  (fixedDigits d k).take ((fixedDigits d k).length - d) ++ '.' :: (fixedDigits d k).drop ((fixedDigits d k).length - d)

/-- A floating-point value as `operator<<` sees it; zero has a sign. -/
inductive CFloat where
  | finite (neg : Bool) (mag : NNRat)
  | inf (neg : Bool)
  | nan (neg : Bool)
  deriving DecidableEq

/-- The number that a magnitude shows with `d` places. -/
def shownValue (d : Nat) (mag : NNRat) : ℚ := (roundHalfEven (mag * 10 ^ d) : ℚ) / 10 ^ d

def signText (neg : Bool) : Str := if neg then ['-'] else []

/-- `std::fixed << std::setprecision(d) << x`. -/
def CFloat.fixed (d : Nat) : CFloat → Str
  | .finite neg mag => signText neg ++ fixedUnits d (roundHalfEven (mag * 10 ^ d))
  | .inf neg => signText neg ++ "inf".toList
  | .nan neg => signText neg ++ "nan".toList

/-- A decimal without sign: digits with at most one point. -/
def readDecimal (s : Str) : Option ℚ :=
  let whole := s.takeWhile Char.isDigit
  match s.dropWhile Char.isDigit with
  | [] => if whole = [] then none else some (readNat whole)
  | c :: frac =>
    if c = '.' ∧ (∀ x ∈ frac, x.isDigit = true) ∧ (whole ≠ [] ∨ frac ≠ [])
    then some ((readNat (whole ++ frac) : ℚ) / 10 ^ frac.length) else none

/-- `float(s)` on the characters that the patterns let through; `none` is a `ValueError`. -/
def readFloat : Str → Option ℚ
  | '-' :: s => (readDecimal s).map (- ·)
  | '+' :: s => readDecimal s
  | s => readDecimal s

theorem isDigit_of_mem_fixedDigits {d k : Nat} {c : Char} (h : c ∈ fixedDigits d k) : c.isDigit = true := by
  rcases List.mem_append.mp h with h | h
  · rw [(List.mem_replicate.mp h).2]
    decide
  · exact isDigit_of_mem_showNat h

private theorem length_fixedDigits (d k : Nat) : d < (fixedDigits d k).length := by
  simp only [fixedDigits, List.length_append, List.length_replicate]
  omega

private theorem readNat_fixedDigits (d k : Nat) : readNat (fixedDigits d k) = k := by
  rw [readNat, fixedDigits, Nat.ofDigitChars_append, Nat.ofDigitChars_replicate_zero, Nat.mul_zero]
  exact readNat_showNat k

theorem mem_fixedUnits {d k : Nat} {c : Char} (h : c ∈ fixedUnits d k) : c = '.' ∨ c.isDigit = true := by
  rcases List.mem_append.mp h with h | h
  · exact .inr (isDigit_of_mem_fixedDigits (List.mem_of_mem_take h))
  · rcases List.mem_cons.mp h with rfl | h
    · exact .inl rfl
    · exact .inr (isDigit_of_mem_fixedDigits (List.mem_of_mem_drop h))

theorem fixedUnits_ne_nil (d k : Nat) : fixedUnits d k ≠ [] := by simp [fixedUnits]

theorem readDecimal_fixedUnits (d k : Nat) : readDecimal (fixedUnits d k) = some ((k : ℚ) / 10 ^ d) := by
  have hlen := length_fixedDigits d k
  have hwhole : ∀ c ∈ (fixedDigits d k).take ((fixedDigits d k).length - d), c.isDigit = true :=
    fun c hc => isDigit_of_mem_fixedDigits (List.mem_of_mem_take hc)
  have hfrac : ∀ c ∈ (fixedDigits d k).drop ((fixedDigits d k).length - d), c.isDigit = true :=
    fun c hc => isDigit_of_mem_fixedDigits (List.mem_of_mem_drop hc)
  have htake : (fixedUnits d k).takeWhile Char.isDigit = (fixedDigits d k).take ((fixedDigits d k).length - d) := by
    rw [fixedUnits, List.takeWhile_append_of_pos hwhole, List.takeWhile_cons_of_neg (by decide), List.append_nil]
  have hdrop : (fixedUnits d k).dropWhile Char.isDigit =
      '.' :: (fixedDigits d k).drop ((fixedDigits d k).length - d) := by
    rw [fixedUnits, List.dropWhile_append_of_pos hwhole, List.dropWhile_cons_of_neg (by decide)]
  have hne : (fixedDigits d k).take ((fixedDigits d k).length - d) ≠ [] := by
    rw [← List.length_pos_iff, List.length_take]
    omega
  have hfraclen : ((fixedDigits d k).drop ((fixedDigits d k).length - d)).length = d := by
    rw [List.length_drop]
    omega
  rw [readDecimal, htake, hdrop]
  simp only
  rw [if_pos ⟨trivial, hfrac, .inl hne⟩, List.take_append_drop, readNat_fixedDigits, hfraclen]

theorem readFloat_fixed (d : Nat) (neg : Bool) (mag : NNRat) :
    readFloat (CFloat.fixed d (.finite neg mag)) = some ((if neg then -1 else 1) * shownValue d mag) := by
  cases neg with
  | true =>
    rw [CFloat.fixed, signText, if_pos rfl, List.singleton_append, readFloat, readDecimal_fixedUnits]
    simp [shownValue]
  | false =>
    rw [CFloat.fixed, signText, if_neg Bool.false_ne_true, List.nil_append]
    have hhead : ∀ c, (fixedUnits d (roundHalfEven (mag * 10 ^ d))).head? = some c → c ≠ '-' ∧ c ≠ '+' := by
      intro c hc
      rcases mem_fixedUnits (List.mem_of_mem_head? hc) with rfl | h
      · decide
      · constructor <;> rintro rfl <;> revert h <;> decide
    have hread : readFloat (fixedUnits d (roundHalfEven (mag * 10 ^ d))) =
        readDecimal (fixedUnits d (roundHalfEven (mag * 10 ^ d))) := by
      unfold readFloat
      split
      · rename_i heq
        exact absurd rfl (hhead '-' (by rw [heq]; rfl)).1
      · rename_i heq
        exact absurd rfl (hhead '+' (by rw [heq]; rfl)).2
      · rfl
    rw [hread, readDecimal_fixedUnits]
    simp [shownValue]

end ChessAnalytics.Strings
