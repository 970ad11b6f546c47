import Mathlib

/-! Text as lists of characters: the string operations a line-based protocol needs,
decimal numerals, and the rules for text built from words that single spaces separate. -/
namespace ChessAnalytics

abbrev Str := List Char

namespace Strings

/-- A statement about every character of a text, or about some character of it, is decided along
the text, not over all characters. -/
instance decidableForallMem (s : Str) (p : Char → Prop) [DecidablePred p] : Decidable (∀ c ∈ s, p c) :=
  List.decidableBAll p s

instance decidableExistsMem (s : Str) (p : Char → Prop) [DecidablePred p] : Decidable (∃ c ∈ s, p c) :=
  List.decidableBEx p s

instance decidableMem (w : Str) (ws : List Str) : Decidable (w ∈ ws) := List.instDecidableMemOfLawfulBEq w ws

/-- Whitespace below 128, as `str.split` and the class `\s` read it. -/
def isSpace (c : Char) : Bool :=
  c == ' ' || (9 ≤ c.toNat && c.toNat ≤ 13) || (28 ≤ c.toNat && c.toNat ≤ 31)

/-- Word characters below 128, the class `\w`. -/
def isWord (c : Char) : Bool := c.isAlphanum || c == '_'

/-- The maximal runs without a separator. -/
def splitBy (p : Char → Bool) (s : Str) : List Str := (s.splitOnP p).filter (fun w => !w.isEmpty)

/-- `str.split()` without an argument: the maximal runs without whitespace. -/
def split (s : Str) : List Str := splitBy isSpace s

/-- `isspace` in the C locale. -/
def isCSpace (c : Char) : Bool := c == ' ' || (9 ≤ c.toNat && c.toNat ≤ 13)

/-- The tokens that a C++ stream reads with `>>`. -/
def words (s : Str) : List Str := splitBy isCSpace s

def removePrefix (p s : Str) : Str := if p <+: s then s.drop p.length else s

def strip (s : Str) : Str := ((s.dropWhile isSpace).reverse.dropWhile isSpace).reverse

/-- One word, the space after it, and the rest of the line. -/
def word (w rest : Str) : Str := w ++ ' ' :: rest

/-- Words that are each followed by one space, then the rest of the line. -/
def line (ws : List Str) (rest : Str) : Str := ws.foldr word rest

/-- Words with one space between two of them. -/
def joined : List Str → Str
  | [] => []
  | [w] => w
  | w :: v :: ws => word w (joined (v :: ws))

@[simp] theorem line_nil (rest : Str) : line [] rest = rest := rfl
@[simp] theorem line_cons (w : Str) (ws : List Str) (rest : Str) :
    line (w :: ws) rest = word w (line ws rest) := rfl

theorem line_append (us ws : List Str) (rest : Str) : line (us ++ ws) rest = line us (line ws rest) := by
  simp [line]

theorem word_append (w a b : Str) : word w a ++ b = word w (a ++ b) := by simp [word]

theorem line_append_rest (ws : List Str) (a b : Str) : line ws a ++ b = line ws (a ++ b) := by
  induction ws with
  | nil => rfl
  | cons w ws ih => rw [line_cons, word_append, ih, line_cons]

theorem mem_word {c : Char} {w rest : Str} : c ∈ word w rest ↔ c ∈ w ∨ c = ' ' ∨ c ∈ rest := by
  simp [word]

theorem mem_line {c : Char} {ws : List Str} {rest : Str} (h : c ∈ line ws rest) :
    c = ' ' ∨ (∃ w ∈ ws, c ∈ w) ∨ c ∈ rest := by
  induction ws with
  | nil => exact .inr (.inr h)
  | cons w ws ih =>
    rw [line_cons, mem_word] at h
    rcases h with h | h | h
    · exact .inr (.inl ⟨w, by simp, h⟩)
    · exact .inl h
    · rcases ih h with h | ⟨v, hv, h⟩ | h
      · exact .inl h
      · exact .inr (.inl ⟨v, by simp [hv], h⟩)
      · exact .inr (.inr h)

theorem mem_joined {c : Char} {ws : List Str} (h : c ∈ joined ws) : c = ' ' ∨ ∃ w ∈ ws, c ∈ w := by
  induction ws using joined.induct with
  | case1 => cases h
  | case2 w => exact .inr ⟨w, by simp, h⟩
  | case3 w v ws ih =>
    rw [joined, mem_word] at h
    rcases h with h | h | h
    · exact .inr ⟨w, by simp, h⟩
    · exact .inl h
    · rcases ih h with h | ⟨u, hu, h⟩
      · exact .inl h
      · exact .inr ⟨u, List.mem_cons_of_mem _ hu, h⟩

section
variable {p : Char → Bool} {w : Str}

theorem splitBy_clean (hw : ∀ c ∈ w, p c = false) (hne : w ≠ []) : splitBy p w = [w] := by
  rw [splitBy, List.splitOnP_eq_singleton hw]
  simp [hne]

/-- A word without separators splits off in front of the rest. -/
theorem splitBy_word (rest : Str) (hp : p ' ' = true) (hw : ∀ c ∈ w, p c = false) (hne : w ≠ []) :
    splitBy p (word w rest) = w :: splitBy p rest := by
  rw [splitBy, word, List.splitOnP_append_cons_of_forall_mem hw ' ' hp rest]
  simp [hne, splitBy]

theorem splitBy_joined {ws : List Str} (hp : p ' ' = true) (hws : ∀ w ∈ ws, w ≠ [] ∧ ∀ c ∈ w, p c = false) :
    splitBy p (joined ws) = ws := by
  induction ws using joined.induct with
  | case1 => simp [joined, splitBy]
  | case2 w => exact splitBy_clean (hws w (by simp)).2 (hws w (by simp)).1
  | case3 w v ws ih =>
    rw [joined, splitBy_word _ hp (hws w (by simp)).2 (hws w (by simp)).1,
      ih (fun u hu => hws u (List.mem_cons_of_mem _ hu))]

theorem splitBy_concat (s : Str) {c : Char} (hc : p c = true) : splitBy p (s ++ [c]) = splitBy p s := by
  rw [splitBy, splitBy, List.splitOnP_append_cons s [] hc]
  simp

theorem splitBy_cons (s : Str) {c : Char} (hc : p c = true) : splitBy p (c :: s) = splitBy p s := by
  rw [splitBy, List.splitOnP_cons_eq_if_modifyHead, if_pos hc]
  rfl

end

theorem split_clean {w : Str} (hw : ∀ c ∈ w, isSpace c = false) (hne : w ≠ []) : split w = [w] :=
  splitBy_clean hw hne

theorem split_word {w : Str} (rest : Str) (hw : ∀ c ∈ w, isSpace c = false) (hne : w ≠ []) :
    split (word w rest) = w :: split rest := splitBy_word rest (by decide) hw hne

theorem split_joined (ws : List Str) (hw : ∀ w ∈ ws, w ≠ [] ∧ ∀ c ∈ w, isSpace c = false) :
    split (joined ws) = ws := splitBy_joined (by decide) hw

theorem split_strip (s : Str) : split (strip s) = split s := by
  have hfront : split (s.dropWhile isSpace) = split s := by
    induction s with
    | nil => rfl
    | cons c s ih =>
      by_cases hc : isSpace c = true
      · rw [List.dropWhile_cons_of_pos hc, ih, split, split, splitBy_cons s hc]
      · rw [List.dropWhile_cons_of_neg hc]
  have hback (t : Str) : split (t.rdropWhile isSpace) = split t := by
    induction t using List.reverseRecOn with
    | nil => rfl
    | append_singleton t c ih =>
      by_cases hc : isSpace c = true
      · rw [List.rdropWhile_concat_pos _ _ _ hc, ih, split, split, splitBy_concat t hc]
      · rw [List.rdropWhile_concat_neg _ _ _ hc]
  exact (hback _).trans hfront

theorem infix_of_strip (s : Str) : strip s <:+: s :=
  (List.rdropWhile_prefix isSpace _).isInfix.trans (List.dropWhile_suffix isSpace).isInfix

private theorem dropWhile_around (a b : Str) {k : Str} (hne : k ≠ []) (hk : ∀ c ∈ k, isSpace c = false) :
    (a ++ (k ++ b)).dropWhile isSpace = a.dropWhile isSpace ++ (k ++ b) := by
  obtain ⟨c, k, rfl⟩ := List.exists_cons_of_ne_nil hne
  have hc : ¬ isSpace c = true := by simp [hk c List.mem_cons_self]
  induction a with
  | nil => exact List.dropWhile_cons_of_neg hc
  | cons x a ih =>
    by_cases hx : isSpace x = true
    · rw [List.cons_append, List.dropWhile_cons_of_pos hx, List.dropWhile_cons_of_pos hx, ih]
    · rw [List.cons_append, List.dropWhile_cons_of_neg hx, List.dropWhile_cons_of_neg hx]
      rfl

theorem strip_around (a b : Str) {k : Str} (hne : k ≠ []) (hk : ∀ c ∈ k, isSpace c = false) :
    strip (a ++ (k ++ b)) = a.dropWhile isSpace ++ (k ++ (b.reverse.dropWhile isSpace).reverse) := by
  have hreverse : (a.dropWhile isSpace ++ (k ++ b)).reverse = b.reverse ++ (k.reverse ++ (a.dropWhile isSpace).reverse) := by
    simp only [List.reverse_append, List.append_assoc]
  have hk' : ∀ c ∈ k.reverse, isSpace c = false := fun c hc => hk c (List.mem_reverse.mp hc)
  rw [strip, dropWhile_around a b hne hk, hreverse, dropWhile_around _ _ (by simpa using hne) hk']
  simp only [List.reverse_append, List.reverse_reverse, List.append_assoc]

theorem prefix_strip {k s : Str} (hne : k ≠ []) (hk : ∀ c ∈ k, isSpace c = false) (h : k <+: s) : k <+: strip s := by
  obtain ⟨b, rfl⟩ := h
  exact ⟨_, (strip_around [] b hne hk).symm⟩

theorem infix_strip {k s : Str} (hne : k ≠ []) (hk : ∀ c ∈ k, isSpace c = false) (h : k <:+: s) : k <:+: strip s := by
  obtain ⟨a, b, rfl⟩ := h
  rw [List.append_assoc, strip_around a b hne hk]
  exact ⟨_, _, List.append_assoc _ _ _⟩

/-- A text without spaces that starts a line starts its first word. -/
theorem prefix_word {k w : Str} (rest : Str) (hk : ' ' ∉ k) : k <+: word w rest ↔ k <+: w := by
  constructor
  · intro h
    induction w generalizing k with
    | nil =>
      cases k with
      | nil => exact List.nil_prefix
      | cons c k =>
        have hc : c = ' ' := (List.cons_prefix_cons.mp (by simpa [word] using h)).1
        simp [hc] at hk
    | cons x w ih =>
      cases k with
      | nil => exact List.nil_prefix
      | cons c k =>
        obtain ⟨hc, ht⟩ := List.cons_prefix_cons.mp (by simpa [word] using h)
        have := ih (k := k) (by simp at hk; exact hk.2) (by simpa [word] using ht)
        exact List.cons_prefix_cons.mpr ⟨hc, this⟩
  · intro h
    exact h.trans (List.prefix_append w _)

/-- A text without spaces occurs in a line exactly when it occurs in one of its words. -/
theorem infix_word {k w rest : Str} (hk : ' ' ∉ k) :
    k <:+: word w rest ↔ k <:+: w ∨ k <:+: rest := by
  induction w with
  | nil =>
    rw [show word [] rest = ' ' :: rest from rfl, List.infix_cons_iff]
    constructor
    · rintro (h | h)
      · have h' : k <+: word [] rest := h
        exact .inl ((prefix_word _ hk).mp h').isInfix
      · exact .inr h
    · rintro (h | h)
      · exact .inl ((List.infix_nil.mp h) ▸ List.nil_prefix)
      · exact .inr h
  | cons x w ih =>
    rw [show word (x :: w) rest = x :: word w rest from rfl, List.infix_cons_iff, ih, List.infix_cons_iff,
      show x :: word w rest = word (x :: w) rest from rfl, prefix_word _ hk, or_assoc]

/-- The last letters of a word, a space, and then more: this starts at the end of the
first word, or it lies wholly behind it. -/
theorem infix_word_word {a b w rest : Str} (ha : ' ' ∉ a) (hw : ' ' ∉ w) :
    word a b <:+: word w rest ↔ (a <:+ w ∧ b <+: rest) ∨ word a b <:+: rest := by
  induction w with
  | nil =>
    rw [show word [] rest = ' ' :: rest from rfl, List.infix_cons_iff]
    refine or_congr ?_ Iff.rfl
    cases a with
    | nil => simp [word]
    | cons c a =>
      have hc : c ≠ ' ' := by simp at ha; exact fun h => ha.1 h.symm
      simp [word, List.cons_prefix_cons, hc]
  | cons x w ih =>
    simp only [List.mem_cons, not_or] at hw
    rw [show word (x :: w) rest = x :: word w rest from rfl, List.infix_cons_iff, ih hw.2,
      List.suffix_cons_iff, ← or_assoc, or_and_right]
    refine or_congr (or_congr ?_ Iff.rfl) Iff.rfl
    constructor
    · intro h
      obtain ⟨t, ht⟩ := h
      have hsplit : a ++ ' ' :: (b ++ t) = (x :: w) ++ ' ' :: rest := by simpa [word] using ht
      rcases List.append_eq_append_iff.mp hsplit with ⟨m, hm, hr⟩ | ⟨m, hm, hr⟩
      · cases m with
        | nil => exact ⟨by simpa using hm.symm, t, by simpa using hr⟩
        | cons c m =>
          have : c = ' ' := by simpa using (List.cons.inj hr).1.symm
          have hmem : ' ' ∈ x :: w := by rw [hm, this]; simp
          rcases List.mem_cons.mp hmem with h | h
          · exact absurd h hw.1
          · exact absurd h hw.2
      · cases m with
        | nil => exact ⟨by simpa using hm, t, by simpa using hr.symm⟩
        | cons c m =>
          have : c = ' ' := by simpa using (List.cons.inj hr).1.symm
          exact absurd (by rw [hm, this]; simp) ha
    · rintro ⟨rfl, t, rfl⟩
      exact ⟨t, by simp [word]⟩

theorem joined_cons (w : Str) (ws : List Str) : joined (w :: ws) = w ++ ws.flatMap (fun v => ' ' :: v) := by
  induction ws generalizing w with
  | nil => simp [joined]
  | cons v ws ih => rw [joined, ih, List.flatMap_cons]; rfl

theorem joined_append (us : List Str) (v : Str) (vs : List Str) :
    joined (us ++ v :: vs) = line us (joined (v :: vs)) := by
  induction us with
  | nil => rfl
  | cons u us ih =>
    obtain ⟨x, xs, hx⟩ := List.exists_cons_of_ne_nil (show us ++ v :: vs ≠ [] by simp)
    rw [List.cons_append, hx, joined, ← hx, ih, line_cons]

theorem infix_joined_of_mem {w : Str} {ws : List Str} (h : w ∈ ws) : w <:+: joined ws := by
  obtain ⟨us, vs, rfl⟩ := List.append_of_mem h
  rw [joined_append, joined_cons]
  induction us with
  | nil => exact (List.prefix_append w _).isInfix
  | cons u us ih =>
    rw [line_cons]
    exact (ih (by simp)).trans (List.IsSuffix.isInfix ⟨u ++ [' '], by simp [word]⟩)

theorem infix_joined {k : Str} {ws : List Str} (hne : k ≠ []) (hk : ' ' ∉ k) (h : k <:+: joined ws) :
    ∃ w ∈ ws, k <:+: w := by
  induction ws using joined.induct with
  | case1 => exact absurd (List.infix_nil.mp h) hne
  | case2 w => exact ⟨w, by simp, h⟩
  | case3 w v ws ih =>
    rcases (infix_word hk).mp h with h | h
    · exact ⟨w, by simp, h⟩
    · obtain ⟨u, hu, h⟩ := ih h
      exact ⟨u, List.mem_cons_of_mem _ hu, h⟩

/-- Two words in a row are only found where some word starts with the second one. -/
theorem pair_infix_joined {a b : Str} {ws : List Str} (ha : ' ' ∉ a) (hb : ' ' ∉ b)
    (hws : ∀ w ∈ ws, ' ' ∉ w) (h : word a b <:+: joined ws) : ∃ w ∈ ws, b <+: w := by
  have hspace : ' ' ∈ word a b := by simp [word]
  induction ws using joined.induct with
  | case1 => rw [List.infix_nil.mp h] at hspace; cases hspace
  | case2 w => exact absurd (h.subset hspace) (hws w (by simp))
  | case3 w v ws ih =>
    rcases (infix_word_word ha (hws w (by simp))).mp h with ⟨-, h⟩ | h
    · refine ⟨v, by simp, ?_⟩
      cases ws with
      | nil => exact h
      | cons u ws => exact (prefix_word _ hb).mp h
    · obtain ⟨u, hu, h⟩ := ih (fun u hu => hws u (List.mem_cons_of_mem _ hu)) h
      exact ⟨u, List.mem_cons_of_mem _ hu, h⟩

def showNat (n : Nat) : Str := Nat.toDigits 10 n

def showInt : Int → Str
  | .ofNat n => showNat n
  | .negSucc n => '-' :: showNat (n + 1)

def readNat (s : Str) : Nat := Nat.ofDigitChars 10 s 0

def readInt : Str → Int
  | '-' :: s => -(readNat s : Int)
  | s => readNat s

@[simp] theorem readNat_showNat (n : Nat) : readNat (showNat n) = n := Nat.ofDigitChars_ten_toDigits

theorem isDigit_of_mem_showNat {n : Nat} {c : Char} (h : c ∈ showNat n) : c.isDigit = true :=
  Nat.isDigit_of_mem_toDigits (by decide) (by decide) h

theorem showNat_ne_nil (n : Nat) : showNat n ≠ [] := Nat.toDigits_ne_nil

theorem showNat_injective : Function.Injective showNat := by
  intro m n h
  simpa using congrArg readNat h

theorem showInt_ne_nil (z : Int) : showInt z ≠ [] := by
  cases z with
  | ofNat n => exact showNat_ne_nil n
  | negSucc n => exact List.cons_ne_nil _ _

theorem mem_showInt {z : Int} {c : Char} (h : c ∈ showInt z) : c = '-' ∨ c.isDigit = true := by
  cases z with
  | ofNat n => exact .inr (isDigit_of_mem_showNat h)
  | negSucc n =>
    rcases List.mem_cons.mp h with h | h
    · exact .inl h
    · exact .inr (isDigit_of_mem_showNat h)

private theorem isSpace_of_isDigit {c : Char} (h : c.isDigit = true) : isSpace c = false := by
  have hlo : 48 ≤ c.toNat := by
    simp only [Char.isDigit, Bool.and_eq_true, decide_eq_true_eq, ge_iff_le, UInt32.le_iff_toNat_le] at h
    exact h.1
  have hne : c ≠ ' ' := by rintro rfl; exact absurd hlo (by decide)
  simp [isSpace, hne]
  omega

theorem isSpace_showNat {n : Nat} {c : Char} (h : c ∈ showNat n) : isSpace c = false :=
  isSpace_of_isDigit (isDigit_of_mem_showNat h)

theorem isSpace_showInt {z : Int} {c : Char} (h : c ∈ showInt z) : isSpace c = false := by
  rcases mem_showInt h with rfl | h
  · decide
  · exact isSpace_of_isDigit h

private theorem readInt_of_head {s : Str} (h : s.head? ≠ some '-') : readInt s = readNat s := by
  unfold readInt
  split
  · simp at h
  · rfl

private theorem head_showNat (n : Nat) : (showNat n).head? ≠ some '-' := by
  intro h
  have := isDigit_of_mem_showNat (List.mem_of_mem_head? h)
  exact absurd this (by decide)

@[simp] theorem readInt_showInt (z : Int) : readInt (showInt z) = z := by
  cases z with
  | ofNat n =>
    rw [showInt, readInt_of_head (head_showNat n), readNat_showNat]
    rfl
  | negSucc n =>
    simp only [showInt, readInt, readNat_showNat]
    rfl

theorem showInt_injective : Function.Injective showInt := by
  intro m n h
  simpa using congrArg readInt h

end Strings
end ChessAnalytics
