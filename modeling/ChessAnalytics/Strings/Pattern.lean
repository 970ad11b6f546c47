import ChessAnalytics.Strings.Basic

/-! Regular expressions with Python's search order. A match is found by backtracking:
repetition is greedy, and the first way to complete the whole pattern wins. -/
namespace ChessAnalytics.Strings

/-- A fragment of `re` syntax. Groups are numbered by the order in which they close. -/
inductive Pattern where
  | empty
  /-- One character of a class. -/
  | one (p : Char → Bool)
  | seq (a b : Pattern)
  /-- `a?`, which tries `a` first. -/
  | opt (a : Pattern)
  /-- `p*` over one class, longest first. -/
  | many (p : Char → Bool)
  /-- `\b`. -/
  | boundary
  /-- `$` without `re.MULTILINE`. -/
  | stop
  | group (a : Pattern)

/-- A place in the text: the character before it, the text after it, and the groups
closed on the way to it. -/
structure Cursor where
  before : Option Char
  rest : Str
  groups : List Str
  deriving DecidableEq, Repr

namespace Pattern

def wordAt : Option Char → Bool
  | none => false
  | some c => isWord c

/-- Greedy repetition: give characters back one by one until the continuation succeeds. -/
def manyRun (p : Char → Bool) (k : Cursor → Option Cursor) (g : List Str) :
    Option Char → Str → Option Cursor
  | b, [] => k ⟨b, [], g⟩
  | b, x :: xs => if p x then (manyRun p k g (some x) xs).or (k ⟨b, x :: xs, g⟩) else k ⟨b, x :: xs, g⟩

/-- Match at one place, then continue with `k`. -/
def run : Pattern → Cursor → (Cursor → Option Cursor) → Option Cursor
  | empty, c, k => k c
  | one p, c, k =>
    match c.rest with
    | [] => none
    | x :: xs => if p x then k ⟨some x, xs, c.groups⟩ else none
  | seq a b, c, k => a.run c (fun d => b.run d k)
  | opt a, c, k => (a.run c k).or (k c)
  | many p, c, k => manyRun p k c.groups c.before c.rest
  | boundary, c, k => if wordAt c.before = wordAt c.rest.head? then none else k c
  | stop, c, k => if c.rest = [] ∨ c.rest = ['\n'] then k c else none
  | group a, c, k =>
    a.run c (fun d => k { d with groups := d.groups ++ [c.rest.take (c.rest.length - d.rest.length)] })

/-- `re.match`: the groups of the match that starts where the text starts. -/
def matchStart (a : Pattern) (s : Str) : Option (List Str) := (a.run ⟨none, s, []⟩ some).map Cursor.groups

def searchFrom (a : Pattern) : Option Char → Str → Option (List Str)
  | b, [] => (a.run ⟨b, [], []⟩ some).map Cursor.groups
  | b, x :: xs => ((a.run ⟨b, x :: xs, []⟩ some).map Cursor.groups).or (searchFrom a (some x) xs)

/-- `re.search`: the groups of the leftmost match. -/
def search (a : Pattern) (s : Str) : Option (List Str) := a.searchFrom none s

def text (s : Str) : Pattern := s.foldr (fun c a => seq (one (· == c)) a) empty

/-- `p+` over one class. -/
def plus (p : Char → Bool) : Pattern := seq (one p) (many p)

/-- The character before the place that a text leads to. -/
def lastOf (b : Option Char) (s : Str) : Option Char := s.getLast?.or b

@[simp] theorem lastOf_nil (b : Option Char) : lastOf b [] = b := rfl

@[simp] theorem lastOf_cons (b : Option Char) (x : Char) (s : Str) : lastOf b (x :: s) = lastOf (some x) s := by
  cases s <;> simp [lastOf, List.getLast?_cons]

variable {k : Cursor → Option Cursor} {b : Option Char} {g : List Str}

@[simp] theorem run_empty (c : Cursor) : empty.run c k = k c := rfl
@[simp] theorem run_seq (a a' : Pattern) (c : Cursor) : (seq a a').run c k = a.run c (fun d => a'.run d k) := rfl

@[simp] theorem run_one_nil (p : Char → Bool) : (one p).run ⟨b, [], g⟩ k = none := rfl

theorem run_one_cons (p : Char → Bool) (x : Char) (xs : Str) :
    (one p).run ⟨b, x :: xs, g⟩ k = if p x then k ⟨some x, xs, g⟩ else none := rfl

@[simp] theorem text_nil : text [] = empty := rfl
@[simp] theorem text_cons (x : Char) (s : Str) : text (x :: s) = seq (one (· == x)) (text s) := rfl

theorem run_text_append (s r : Str) :
    (text s).run ⟨b, s ++ r, g⟩ k = k ⟨lastOf b s, r, g⟩ := by
  induction s generalizing b with
  | nil => rfl
  | cons x s ih =>
    rw [text_cons, run_seq, List.cons_append, run_one_cons, if_pos (by simp), ih, lastOf_cons]

/-- Without the literal in front of the place there is no match. -/
theorem run_text_none {s r : Str} (h : ¬ s <+: r) : (text s).run ⟨b, r, g⟩ k = none := by
  induction s generalizing b r with
  | nil => exact absurd List.nil_prefix h
  | cons x s ih =>
    cases r with
    | nil => rfl
    | cons y r =>
      rw [text_cons, run_seq, run_one_cons]
      split
      · rename_i hy
        have hxy : y = x := by simpa using hy
        exact ih (fun hp => h (List.cons_prefix_cons.mpr ⟨hxy.symm, hp⟩))
      · rfl

theorem run_boundary_pos (c : Cursor) (h : wordAt c.before ≠ wordAt c.rest.head?) :
    boundary.run c k = k c := if_neg h

theorem run_boundary_neg (c : Cursor) (h : wordAt c.before = wordAt c.rest.head?) :
    boundary.run c k = none := if_pos h

/-- A group records the text between the places at its two ends. -/
theorem run_group (a : Pattern) (s r : Str) :
    (group a).run ⟨b, s ++ r, g⟩ k =
      a.run ⟨b, s ++ r, g⟩ (fun d =>
        k ⟨d.before, d.rest, d.groups ++ [(s ++ r).take ((s ++ r).length - d.rest.length)]⟩) := rfl

theorem manyRun_stop {p : Char → Bool} {r : Str} (hr : ∀ y ∈ r.head?, p y = false) :
    manyRun p k g b r = k ⟨b, r, g⟩ := by
  cases r with
  | nil => rfl
  | cons y r =>
    have : p y = false := hr y (by simp)
    simp [manyRun, this]

/-- Maximal munch: when the rest of the pattern matches behind the longest run of the
class, that is the match. -/
theorem manyRun_munch {p : Char → Bool} {s r : Str} {z : Cursor} (hs : ∀ x ∈ s, p x = true)
    (hr : ∀ y ∈ r.head?, p y = false) (hk : k ⟨lastOf b s, r, g⟩ = some z) :
    manyRun p k g b (s ++ r) = some z := by
  induction s generalizing b with
  | nil => rw [List.nil_append, manyRun_stop hr, ← hk]; rfl
  | cons x s ih =>
    have hx : p x = true := hs x (by simp)
    have := ih (b := some x) (fun y hy => hs y (List.mem_cons_of_mem _ hy)) (by simpa using hk)
    simp [manyRun, hx, this]

theorem manyRun_none {p : Char → Bool} {r : Str} (h : ∀ b v, v <:+ r → k ⟨b, v, g⟩ = none) :
    manyRun p k g b r = none := by
  induction r generalizing b with
  | nil => exact h b [] List.suffix_rfl
  | cons x r ih =>
    have htail : manyRun p k g (some x) r = none := ih (fun c v hv => h c v (hv.trans (List.suffix_cons x r)))
    have hhere : k ⟨b, x :: r, g⟩ = none := h b _ List.suffix_rfl
    simp [manyRun, htail, hhere]

/-- The class gives characters back as long as the rest of the pattern fails behind them. -/
theorem manyRun_giveBack {p : Char → Bool} {s r : Str} {z : Cursor} (hs : ∀ x ∈ s, p x = true)
    (hlater : ∀ b v, v <:+ r → v ≠ r → k ⟨b, v, g⟩ = none) (hk : k ⟨lastOf b s, r, g⟩ = some z) :
    manyRun p k g b (s ++ r) = some z := by
  induction s generalizing b with
  | nil =>
    cases r with
    | nil => exact hk
    | cons x r =>
      have htail : manyRun p k g (some x) r = none := by
        apply manyRun_none
        intro c v hv
        refine hlater c v (hv.trans (List.suffix_cons x r)) (fun he => ?_)
        have := hv.length_le
        simp [he] at this
      have hhere : k ⟨b, x :: r, g⟩ = some z := hk
      simp [manyRun, htail, hhere]
  | cons x s ih =>
    have hx : p x = true := hs x (by simp)
    have := ih (b := some x) (fun y hy => hs y (List.mem_cons_of_mem _ hy)) (by simpa using hk)
    simp [manyRun, hx, this]

theorem run_plus_cons {p : Char → Bool} {x : Char} {xs : Str} :
    (plus p).run ⟨b, x :: xs, g⟩ k = if p x then manyRun p k g (some x) xs else none := rfl

theorem run_plus_munch {p : Char → Bool} {s r : Str} {z : Cursor} (hne : s ≠ []) (hs : ∀ x ∈ s, p x = true)
    (hr : ∀ y ∈ r.head?, p y = false) (hk : k ⟨lastOf b s, r, g⟩ = some z) :
    (plus p).run ⟨b, s ++ r, g⟩ k = some z := by
  cases s with
  | nil => exact absurd rfl hne
  | cons x s =>
    rw [List.cons_append, run_plus_cons, if_pos (hs x (by simp))]
    exact manyRun_munch (fun y hy => hs y (List.mem_cons_of_mem _ hy)) hr (by simpa using hk)

theorem run_group_plus {p : Char → Bool} {s r : Str} {z : Cursor} (hne : s ≠ []) (hs : ∀ x ∈ s, p x = true)
    (hr : ∀ y ∈ r.head?, p y = false) (hk : k ⟨lastOf b s, r, g ++ [s]⟩ = some z) :
    (group (plus p)).run ⟨b, s ++ r, g⟩ k = some z := by
  rw [run_group]
  apply run_plus_munch hne hs hr
  simpa using hk

theorem run_group_signed {q p : Char → Bool} {sign s r : Str} {z : Cursor} (hsign : sign.length ≤ 1)
    (hq : ∀ x ∈ sign, q x = true) (hne : s ≠ []) (hs : ∀ x ∈ s, p x = true ∧ q x = false)
    (hr : ∀ y ∈ r.head?, p y = false) (hk : k ⟨lastOf b (sign ++ s), r, g ++ [sign ++ s]⟩ = some z) :
    (group (seq (opt (one q)) (plus p))).run ⟨b, sign ++ (s ++ r), g⟩ k = some z := by
  have hplus (c : Option Char) (hc : lastOf c s = lastOf b (sign ++ s)) :
      (plus p).run ⟨c, s ++ r, g⟩ (fun d =>
        k ⟨d.before, d.rest, d.groups ++ [(sign ++ (s ++ r)).take ((sign ++ (s ++ r)).length - d.rest.length)]⟩) =
          some z := by
    apply run_plus_munch hne (fun x hx => (hs x hx).1) hr
    rw [hc, ← hk]
    simp [← List.append_assoc]
  rw [← List.append_assoc, run_group]
  simp only [run_seq, List.append_assoc]
  match sign, hsign with
  | [], _ =>
    obtain ⟨x, s, rfl⟩ := List.exists_cons_of_ne_nil hne
    have hx : q x = false := (hs x (by simp)).2
    have := hplus b (by simp)
    simpa [run, hx] using this
  | [x], _ =>
    have hx : q x = true := hq x (by simp)
    have := hplus (some x) (by simp)
    simp only [List.cons_append, List.nil_append] at this ⊢
    rw [run, run_one_cons, if_pos hx, this]
    rfl

variable {a : Pattern}

theorem searchFrom_here {s : Str} {c : Cursor} (h : a.run ⟨b, s, []⟩ some = some c) :
    a.searchFrom b s = some c.groups := by
  cases s <;> simp [searchFrom, h]

/-- A stretch of text at whose places the pattern fails is passed over. -/
theorem searchFrom_skip {s r : Str}
    (h : ∀ u v, s = u ++ v → v ≠ [] → a.run ⟨lastOf b u, v ++ r, []⟩ some = none) :
    a.searchFrom b (s ++ r) = a.searchFrom (lastOf b s) r := by
  induction s generalizing b with
  | nil => rfl
  | cons x s ih =>
    have hhere := h [] (x :: s) rfl (by simp)
    rw [lastOf_nil, List.cons_append] at hhere
    rw [List.cons_append, searchFrom, hhere, lastOf_cons]
    simp only [Option.map_none, Option.none_or]
    exact ih (fun u v hs hv => by simpa using h (x :: u) v (by simp [hs]) hv)

theorem searchFrom_none {s : Str} (h : ∀ u v, s = u ++ v → a.run ⟨lastOf b u, v, []⟩ some = none) :
    a.searchFrom b s = none := by
  have hskip := searchFrom_skip (a := a) (b := b) (s := s) (r := [])
    (fun u v hs _ => by simpa using h u v hs)
  rw [List.append_nil] at hskip
  simp [hskip, searchFrom, h s [] (by simp)]

/-- A literal whose second character does not occur in a stretch is not found there. -/
theorem searchFrom_text_skip {x y : Char} {s r tail : Str} {a' : Pattern} (hy : y ∉ s)
    (hr : ∀ z ∈ r.head?, z ≠ y) :
    (seq (text (x :: y :: tail)) a').searchFrom b (s ++ r) =
      (seq (text (x :: y :: tail)) a').searchFrom (lastOf b s) r := by
  apply searchFrom_skip
  intro u v hs hv
  rw [run_seq]
  apply run_text_none
  intro hp
  obtain ⟨c, v, rfl⟩ := List.exists_cons_of_ne_nil hv
  obtain ⟨_, hp⟩ := List.cons_prefix_cons.mp hp
  cases v with
  | nil =>
    cases r with
    | nil => simp at hp
    | cons z r => exact hr z (by simp) (List.cons_prefix_cons.mp hp).1.symm
  | cons z v =>
    have hz : y = z := (List.cons_prefix_cons.mp hp).1
    exact hy (by simp [hs, hz])

/-- A word boundary, a word, and a pattern that goes on with whitespace. -/
def keyed (key : Str) (tail : Pattern) : Pattern := seq boundary (seq (text key) tail)

def IsKey (key : Str) : Prop := key ≠ [] ∧ ∀ c ∈ key, isWord c = true

instance (key : Str) : Decidable (IsKey key) := by unfold IsKey; infer_instance

/-- The pattern only matches where whitespace comes next. -/
def SpaceFirst (tail : Pattern) : Prop :=
  ∀ b r g k, (∀ y ∈ r.head?, isSpace y = false) → tail.run ⟨b, r, g⟩ k = none

/-- A word ends with the key, if at all, only behind another word character. -/
def skips (key w : Str) : Bool := !key.isSuffixOf w || wordAt (w.take (w.length - key.length)).getLast?

theorem skips_of_not_mem {key w : Str} {c : Char} (hc : c ∈ key) (hw : c ∉ w) : skips key w = true := by
  have : key.isSuffixOf w = false := by
    rw [← Bool.not_eq_true, List.isSuffixOf_iff_suffix]
    exact fun h => hw (h.subset hc)
  simp [skips, this]

def Passes (key w : Str) : Prop := (∀ c ∈ w, isSpace c = false) ∧ skips key w = true

instance (key w : Str) : Decidable (Passes key w) := by unfold Passes; infer_instance

/-- A numeral passes every key that holds a character no numeral has. -/
theorem passes_showInt {key : Str} (z : Int) (h : ∃ c ∈ key, c.isDigit = false ∧ c ≠ '-') :
    Passes key (showInt z) := by
  obtain ⟨c, hc, hd, hm⟩ := h
  refine ⟨fun x hx => isSpace_showInt hx, skips_of_not_mem hc (fun hz => ?_)⟩
  rcases mem_showInt hz with hz | hz
  · exact hm hz
  · rw [hd] at hz; cases hz

theorem passes_showNat {key : Str} (n : Nat) (h : ∃ c ∈ key, c.isDigit = false ∧ c ≠ '-') :
    Passes key (showNat n) := passes_showInt (n : Int) h

theorem spaceFirst_text {c : Char} {s : Str} {a' : Pattern} (hc : isSpace c = true) :
    SpaceFirst (seq (text (c :: s)) a') := by
  intro b r g k hr
  rw [run_seq]
  apply run_text_none
  intro hp
  cases r with
  | nil => simp at hp
  | cons y r =>
    have hy : c = y := (List.cons_prefix_cons.mp hp).1
    have := hr y (by simp)
    simp [← hy, hc] at this

theorem spaceFirst_plus {a' : Pattern} : SpaceFirst (seq (plus isSpace) a') := by
  intro b r g k hr
  cases r with
  | nil => rfl
  | cons y r =>
    have : isSpace y = false := hr y (by simp)
    simp [plus, run, this]

theorem isSpace_of_isWord {c : Char} (h : isWord c = true) : isSpace c = false := by
  simp only [isWord, Char.isAlphanum, Char.isAlpha, Char.isUpper, Char.isLower, Char.isDigit,
    isSpace, Bool.or_eq_true, Bool.and_eq_true, decide_eq_true_eq, beq_iff_eq, Bool.or_eq_false_iff,
    Bool.and_eq_false_iff, decide_eq_false_iff_not, beq_eq_false_iff_ne, Char.toNat] at h ⊢
  have hv : c.val.toNat = c.toNat := rfl
  refine ⟨⟨?_, ?_⟩, ?_⟩
  · rintro rfl
    revert h
    decide
  all_goals
    simp only [UInt32.le_iff_toNat_le, ge_iff_le] at h
    rcases h with ((⟨h, _⟩ | ⟨h, _⟩) | ⟨h, _⟩) | rfl
    · right; change _ ≤ c.val.toNat at h; simp at h; omega
    · right; change _ ≤ c.val.toNat at h; simp at h; omega
    · right; change _ ≤ c.val.toNat at h; simp at h; omega
    · right; decide

variable {key : Str} {tail : Pattern}

private theorem run_keyed_none {v : Str} {c : Option Char} (hk : IsKey key)
    (h : ∀ r, v = key ++ r → wordAt c = false → tail.run ⟨lastOf c key, r, []⟩ some = none) :
    (keyed key tail).run ⟨c, v, []⟩ some = none := by
  by_cases hp : key <+: v
  · obtain ⟨r, rfl⟩ := hp
    by_cases hc : wordAt c = false
    · simp only [keyed, run_seq, run]
      split
      · rfl
      · rw [run_text_append]
        exact h r rfl hc
    · obtain ⟨x, key, rfl⟩ := List.exists_cons_of_ne_nil hk.1
      have hx : isWord x = true := hk.2 x (by simp)
      rw [keyed, run_seq, run_boundary_neg]
      simp only [List.cons_append, List.head?_cons]
      rw [Bool.not_eq_false] at hc
      rw [hc, show wordAt (some x) = isWord x from rfl, hx]
  · simp only [keyed, run_seq, run]
    split
    · rfl
    · rw [run_text_none hp]

/-- A word that is not the key, or that is the key with a failing rest, is passed over
together with the space behind it. -/
theorem searchFrom_keyed_word {w rest : Str} (hk : IsKey key) (ht : SpaceFirst tail)
    (hw : ∀ c ∈ w, isSpace c = false)
    (hs : skips key w = true ∨ ∀ c, tail.run ⟨c, ' ' :: rest, []⟩ some = none) :
    (keyed key tail).searchFrom b (word w rest) = (keyed key tail).searchFrom (some ' ') rest := by
  have hsplit : word w rest = (w ++ [' ']) ++ rest := by simp [word]
  have hlast : lastOf b (w ++ [' ']) = some ' ' := by simp [lastOf]
  rw [hsplit, searchFrom_skip, hlast]
  intro u v huv hv
  obtain ⟨v, rfl⟩ : ∃ v', v = v' ++ [' '] := by
    refine ⟨v.dropLast, ?_⟩
    have hl := congrArg List.getLast? huv
    rw [List.getLast?_append_of_ne_nil _ hv] at hl
    simp only [List.getLast?_append, List.getLast?_singleton, Option.some_or] at hl
    exact (List.dropLast_append_getLast? _ hl.symm).symm
  have hwu : w = u ++ v := by
    have : w ++ [' '] = (u ++ v) ++ [' '] := by simpa using huv
    exact List.append_cancel_right this
  apply run_keyed_none hk
  intro r hr hc
  have hkey : ' ' ∉ key := fun hm => absurd (isSpace_of_isWord (hk.2 _ hm)) (by decide)
  have hpre : key <+: v := by
    rw [← prefix_word rest hkey]
    exact ⟨r, by simpa [word] using hr.symm⟩
  obtain ⟨m, rfl⟩ := hpre
  have hrest : r = m ++ ' ' :: rest := by simpa using hr.symm
  subst hrest
  cases m with
  | cons y m =>
    apply ht
    intro z hz
    have hz' : y = z := by simpa using hz
    exact hw z (by simp [hwu, hz'])
  | nil =>
    rcases hs with hs | hs
    · exfalso
      have hsuf : key <:+ w := ⟨u, by simp [hwu]⟩
      have htake : w.take (w.length - key.length) = u := by simp [hwu]
      rw [skips, htake, (List.isSuffixOf_iff_suffix).mpr hsuf] at hs
      have hu : wordAt u.getLast? = true := by simpa using hs
      cases hl : u.getLast? with
      | none => simp [hl, wordAt] at hu
      | some y => simp [lastOf, hl] at hc; simp [hl, hc] at hu
    · exact hs _

/-- Words that all pass the key over are passed over together. -/
theorem searchFrom_keyed_line {ws : List Str} (rest : Str) (hk : IsKey key) (ht : SpaceFirst tail)
    (hb : wordAt b = false) (hws : ∀ w ∈ ws, Passes key w) :
    ∃ c, wordAt c = false ∧
      (keyed key tail).searchFrom b (line ws rest) = (keyed key tail).searchFrom c rest := by
  induction ws generalizing b with
  | nil => exact ⟨b, hb, rfl⟩
  | cons w ws ih =>
    obtain ⟨hw, hs⟩ := hws w (by simp)
    obtain ⟨c, hc, he⟩ := ih (b := some ' ') (by decide) (fun v hv => hws v (List.mem_cons_of_mem _ hv))
    exact ⟨c, hc, by rw [line_cons, searchFrom_keyed_word hk ht hw (.inl hs), he]⟩

/-- The last word of a line is never the key, because whitespace has to follow it. -/
theorem searchFrom_keyed_last {w : Str} (hk : IsKey key) (ht : SpaceFirst tail)
    (hw : ∀ c ∈ w, isSpace c = false) : (keyed key tail).searchFrom b w = none := by
  apply searchFrom_none
  intro u v huv
  apply run_keyed_none hk
  intro r hr _
  apply ht
  intro y hy
  exact hw y (by rw [huv, hr]; simp [List.mem_of_mem_head? hy])

theorem searchFrom_keyed_absent {s : Str} (hk : IsKey key) (hs : ¬ key <:+: s) :
    (keyed key tail).searchFrom b s = none := by
  apply searchFrom_none
  intro u v huv
  apply run_keyed_none hk
  intro r hr _
  exact absurd ⟨u, r, by rw [huv, hr, List.append_assoc]⟩ hs

theorem searchFrom_keyed_here {r : Str} {c : Cursor} (hk : IsKey key) (hb : wordAt b = false)
    (hr : tail.run ⟨lastOf b key, r, []⟩ some = some c) :
    (keyed key tail).searchFrom b (key ++ r) = some c.groups := by
  apply searchFrom_here
  obtain ⟨x, key, rfl⟩ := List.exists_cons_of_ne_nil hk.1
  have hx : isWord x = true := hk.2 x (by simp)
  rw [keyed, run_seq, run_boundary_pos _ (by simp [hb, show wordAt (some x) = isWord x from rfl, hx]), run_seq, run_text_append]
  exact hr

end Pattern
end ChessAnalytics.Strings
