import ChessAnalytics.Lc0.Printer
import ChessAnalytics.Lc0.Client

/-! `query` reads back what lc0 printed: each recogniser of its loop finds its own lines and
passes over all others. -/
namespace ChessAnalytics.Lc0
open Strings Pattern

/-- A character that no number, sign or blank has. -/
private def Foreign (c : Char) : Prop := c.isDigit = false ∧ c ∉ " -.infa".toList

private instance (c : Char) : Decidable (Foreign c) := by unfold Foreign; infer_instance

variable {c : Char}

private theorem not_mem_fixed (hc : Foreign c) (d : Nat) (x : CFloat) : c ∉ x.fixed d := by
  have hsign (neg : Bool) : c ∉ signText neg := by
    cases neg with
    | false => exact List.not_mem_nil
    | true => exact fun h => hc.2 (by rw [List.mem_singleton.mp h]; decide)
  have hmark (neg : Bool) (t : Str) (ht : ∀ y ∈ t, y ∈ " -.infa".toList) : c ∉ signText neg ++ t := by
    rw [List.mem_append, not_or]
    exact ⟨hsign neg, fun h => hc.2 (ht c h)⟩
  cases x with
  | finite neg mag =>
    rw [CFloat.fixed, List.mem_append, not_or]
    refine ⟨hsign neg, fun h => ?_⟩
    rcases mem_fixedUnits h with rfl | h
    · exact hc.2 (by decide)
    · rw [hc.1] at h; cases h
  | inf neg => exact hmark neg _ (by decide)
  | nan neg => exact hmark neg _ (by decide)

private theorem not_mem_showNat (hc : Foreign c) (n : Nat) : c ∉ showNat n := fun h => by
  have := isDigit_of_mem_showNat h
  rw [hc.1] at this
  cases this

private theorem not_mem_printField {left : Bool} {pre v post : Str} {w : Nat} (hc : Foreign c) (hpre : c ∉ pre)
    (hv : c ∉ v) (hpost : c ∉ post) : c ∉ printField left pre v post w := by
  have hpad (n : Nat) : c ∉ List.replicate n ' ' := fun h => hc.2 (by rw [(List.mem_replicate.mp h).2]; decide)
  cases left <;> simp only [printField, setwLeft, setwRight, Bool.false_eq_true, if_true, if_false, List.mem_append,
    not_or]
  · exact ⟨⟨hpre, hpad _, hv⟩, hpost⟩
  · exact ⟨⟨hpre, hv, hpad _⟩, hpost⟩

private theorem not_mem_text (hc : Foreign c) {letters s : Str} (hl : c ∉ letters)
    (hs : ∀ y ∈ s, y ∈ letters ∨ y ∈ " -.infa".toList) : c ∉ s := fun h => (hs c h).elim hl hc.2

private theorem not_mem_field {left : Bool} {pre v post letters : Str} {w : Nat} (hc : Foreign c) (hl : c ∉ letters)
    (hv : c ∉ v) (hs : ∀ y ∈ pre ++ post, y ∈ letters ∨ y ∈ " -.infa".toList) : c ∉ printField left pre v post w := by
  have htext := not_mem_text hc hl hs
  rw [List.mem_append, not_or] at htext
  exact not_mem_printField hc htext.1 hv htext.2

private theorem not_mem_printStats (hc : Foreign c) (hl : c ∉ "(WL:) DMQ".toList) (fpu : CFloat)
    (n : Option NodeStats) : c ∉ printStats fpu n := by
  cases n with
  | none =>
    unfold printStats
    rw [List.mem_append, not_or]
    exact ⟨not_mem_text hc hl (by decide), not_mem_field hc hl (not_mem_fixed hc _ _) (by decide)⟩
  | some n =>
    unfold printStats
    simp only [List.mem_append, not_or]
    exact ⟨⟨⟨not_mem_field hc hl (not_mem_fixed hc _ _) (by decide),
      not_mem_field hc hl (not_mem_fixed hc _ _) (by decide)⟩,
      not_mem_field hc hl (not_mem_fixed hc _ _) (by decide)⟩,
      not_mem_field hc hl (not_mem_fixed hc _ _) (by decide)⟩

private theorem bounds_chars (b : BoundsMark) :
    ∀ y ∈ b.text, y ∈ "(V:)TWL".toList ∨ y ∈ " -.infa".toList := by
  cases b <;> decide

private theorem not_mem_printTail (hc : Foreign c) (hl : c ∉ "(V:)TWL".toList) (n : Option NodeStats) :
    c ∉ printTail n := by
  unfold printTail
  rw [List.mem_append, not_or]
  constructor
  · split
    · exact not_mem_field hc hl (not_mem_fixed hc _ _) (by decide)
    · exact not_mem_text hc hl (by decide)
  · cases n with
    | none => exact List.not_mem_nil
    | some n => exact not_mem_text hc hl (bounds_chars n.bounds)

private theorem not_mem_percentText (hc : Foreign c) (f32 : NNRat → NNRat) (p : NNRat) : c ∉ percentText f32 p :=
  not_mem_fixed hc _ _

private theorem not_mem_printHead (hc : Foreign c) (hl : c ∉ "()N:+P%".toList) (f32 : NNRat → NNRat) (left : Bool)
    {label : Str} (hlabel : c ∉ label) (i n f : Nat) (p : NNRat) : c ∉ printHead f32 left label i n f p := by
  simp only [printHead, List.mem_append, not_or]
  exact ⟨⟨⟨⟨not_mem_field hc hl hlabel (by decide),
    not_mem_field hc hl (not_mem_showNat hc i) (by decide)⟩,
    not_mem_field hc hl (not_mem_showNat hc n) (by decide)⟩,
    not_mem_field hc hl (not_mem_showNat hc f) (by decide)⟩,
    not_mem_field hc hl (not_mem_percentText hc f32 p) (by decide)⟩

def moveChars : Str := fileChars ++ rankChars ++ promotionChars

theorem mem_moveText (m : MoveText) : ∀ c ∈ m.val, c ∈ moveChars := by
  obtain ⟨s, f, r, f', r', promo, rfl, hf, hr, hf', hr', hp⟩ := m
  intro c hc
  simp only [List.cons_append, List.nil_append, List.mem_cons] at hc
  simp only [moveChars, List.mem_append]
  rcases hc with rfl | rfl | rfl | rfl | hc
  · exact .inl (.inl hf)
  · exact .inl (.inr hr)
  · exact .inl (.inl hf')
  · exact .inl (.inr hr')
  · rcases hp with rfl | ⟨p, hp, rfl⟩
    · cases hc
    · exact .inr (List.mem_singleton.mp hc ▸ hp)

theorem moveText_ne_nil (m : MoveText) : m.val ≠ [] := by
  obtain ⟨s, f, r, f', r', promo, rfl, -⟩ := m
  simp

theorem moveText_clean (m : MoveText) : ∀ c ∈ m.val, isSpace c = false := by
  have h : ∀ c ∈ moveChars, isSpace c = false := by decide
  exact fun c hc => h c (mem_moveText m c hc)

private theorem not_mem_edgeLine (hc : Foreign c) (hl : c ∉ "()N:+P%WLDMQUSVT".toList) (hm : c ∉ moveChars)
    (f32 : NNRat → NNRat) (fpu : CFloat) (e : RootEdge) : c ∉ edgeLine f32 fpu e := by
  simp only [edgeLine, List.mem_append, not_or]
  exact ⟨⟨⟨⟨not_mem_printHead hc (not_mem_text hc hl (by decide)) f32 true (fun h => hm (mem_moveText e.move c h)) _ _ _ _,
    not_mem_printStats hc (not_mem_text hc hl (by decide)) fpu _⟩,
    not_mem_field hc hl (not_mem_fixed hc _ _) (by decide)⟩,
    not_mem_field hc hl (not_mem_fixed hc _ _) (by decide)⟩,
    not_mem_printTail hc (not_mem_text hc hl (by decide)) _⟩

private theorem not_mem_nodeLine (hc : Foreign c) (hl : c ∉ "()N:+P%WLDMQUSVT".toList) (hm : c ∉ "node ".toList)
    (f32 : NNRat → NNRat) (fpu : CFloat) (r : RootNode) : c ∉ nodeLine f32 fpu r := by
  simp only [nodeLine, List.mem_append, not_or]
  exact ⟨⟨not_mem_printHead hc (not_mem_text hc hl (by decide)) f32 false hm _ _ _ _,
    not_mem_printStats hc (not_mem_text hc hl (by decide)) fpu _⟩, not_mem_printTail hc (not_mem_text hc hl (by decide)) _⟩

section
variable {a : Pattern} {b : Option Char} {g : List Str} {k : Cursor → Option Cursor} {z : Cursor} {r : Str}

private theorem run_blanks (n : Nat) (hr : ∀ y ∈ r.head?, isSpace y = false)
    (hk : a.run ⟨lastOf b (List.replicate n ' '), r, g⟩ k = some z) :
    (seq (many isSpace) a).run ⟨b, List.replicate n ' ' ++ r, g⟩ k = some z :=
  manyRun_munch (fun x hx => by rw [(List.mem_replicate.mp hx).2]; rfl) hr hk

private theorem run_someBlanks (n : Nat) (hr : ∀ y ∈ r.head?, isSpace y = false)
    (hk : a.run ⟨lastOf b (List.replicate (n + 1) ' '), r, g⟩ k = some z) :
    (seq (plus isSpace) a).run ⟨b, List.replicate (n + 1) ' ' ++ r, g⟩ k = some z := by
  rw [run_seq]
  exact run_plus_munch (by simp) (fun x hx => by rw [(List.mem_replicate.mp hx).2]; rfl) hr hk

private theorem run_literal (s : Str) : (seq (text s) a).run ⟨b, s ++ r, g⟩ k = a.run ⟨lastOf b s, r, g⟩ k := by
  rw [run_seq, run_text_append]

private theorem run_number (n : Nat) (hr : ∀ y ∈ r.head?, y.isDigit = false)
    (hk : a.run ⟨lastOf b (showNat n), r, g⟩ k = some z) :
    (seq (plus Char.isDigit) a).run ⟨b, showNat n ++ r, g⟩ k = some z := by
  rw [run_seq]
  exact run_plus_munch (showNat_ne_nil n) (fun _ hc => isDigit_of_mem_showNat hc) hr hk

private theorem run_move (m : MoveText) (hr : ∀ y ∈ r.head?, isPromotion y = false)
    (hk : a.run ⟨lastOf b m.val, r, g ++ [m.val]⟩ k = some z) :
    (seq movePattern a).run ⟨b, m.val ++ r, g⟩ k = some z := by
  have hfile : ∀ c ∈ fileChars, isFile c = true := by decide
  have hrank : ∀ c ∈ rankChars, isRank c = true := by decide
  have hpromotion : ∀ c ∈ promotionChars, isPromotion c = true := by decide
  obtain ⟨s, f, x, f', x', promo, rfl, hf, hx, hf', hx', hp⟩ := m
  rw [run_seq, movePattern, run_group]
  simp only [run_seq, List.cons_append, List.nil_append, run_one_cons, hfile f hf, hrank x hx, hfile f' hf',
    hrank x' hx', if_true]
  rcases hp with rfl | ⟨p, hp, rfl⟩
  · have hopt : (one isPromotion).run ⟨some x', r, g⟩ (fun d => a.run ⟨d.before, d.rest, d.groups ++
        [(f :: x :: f' :: x' :: r).take ((f :: x :: f' :: x' :: r).length - d.rest.length)]⟩ k) = none := by
      cases r with
      | nil => rfl
      | cons y r => rw [run_one_cons, hr y rfl]; rfl
    rw [List.nil_append, run, hopt, Option.none_or, ← hk]
    simp [show r.length + 1 + 1 + 1 + 1 - r.length = 4 by omega]
  · rw [List.singleton_append, run, run_one_cons, hpromotion p hp, if_pos rfl]
    have htake : (f :: x :: f' :: x' :: p :: r).take ((f :: x :: f' :: x' :: p :: r).length - r.length) =
        [f, x, f', x', p] := by
      simp [show r.length + 1 + 1 + 1 + 1 + 1 - r.length = 5 by omega]
    simp only [htake]
    rw [show a.run ⟨some p, r, g ++ [[f, x, f', x', p]]⟩ k = some z from hk]
    rfl

end

private theorem space_of_numeral {c : Char} (h : isNumeral c = true) : isSpace c = false := by
  rcases Bool.or_eq_true_iff.mp h with h | h
  · exact isSpace_of_isWord (by simp [isWord, Char.isAlphanum, h])
  · rw [beq_iff_eq.mp h]; rfl

private theorem run_percent {b : Option Char} {g : List Str} {pct : Str} (n : Nat) (tail : Str) (hne : pct ≠ [])
    (hpct : ∀ c ∈ pct, isNumeral c = true) :
    ∃ c : Cursor, percentPattern.run ⟨b, "(P:".toList ++ (List.replicate n ' ' ++ (pct ++ ("%)".toList ++ tail))), g⟩ some =
      some c ∧ c.groups = g ++ [pct] := by
  obtain ⟨x, xs, rfl⟩ := List.exists_cons_of_ne_nil hne
  refine ⟨⟨lastOf (lastOf (lastOf (lastOf b "(P:".toList) (List.replicate n ' ')) (x :: xs)) "%)".toList, tail,
    g ++ [x :: xs]⟩, ?_, rfl⟩
  rw [percentPattern, run_literal]
  apply run_blanks n
  · intro y hy
    have : x = y := by simpa using hy
    exact space_of_numeral (hpct y (by simp [this]))
  · rw [run_seq]
    apply run_group_plus hne hpct
    · intro y hy
      have : '%' = y := by simpa using hy
      rw [← this]
      rfl
    · exact run_text_append "%)".toList tail

private theorem percent_none {b : Option Char} {g : List Str} {rest v : Str} (hP : 'P' ∉ rest)
    (hv : v <:+ "(P:".toList ++ rest) (hne : v ≠ "(P:".toList ++ rest) :
    percentPattern.run ⟨b, v, g⟩ some = none := by
  have hrest : 'P' ∉ ':' :: rest := by simp [hP]
  rw [percentPattern, run_seq]
  apply run_text_none
  rintro ⟨t, rfl⟩
  have hP' : 'P' ∈ "P:".toList ++ t := List.mem_cons_self
  rcases List.suffix_cons_iff.mp hv with hv | hv
  · exact hne hv
  rcases List.suffix_cons_iff.mp hv with hv | hv
  · exact absurd (List.cons.inj hv).1 (by decide)
  · exact hrest (hv.subset (List.mem_cons_of_mem '(' hP'))

private theorem match_policy (m : MoveText) (i n₁ n₂ n₃ : Nat) {mid pct tail : Str} (hmid : '\n' ∉ mid)
    (hne : pct ≠ []) (hpct : ∀ c ∈ pct, isNumeral c = true) (htail : 'P' ∉ tail) :
    policyPattern.matchStart ("info string".toList ++ (List.replicate 1 ' ' ++ (m.val ++ (List.replicate (n₁ + 1) ' ' ++
      ("(".toList ++ (List.replicate 0 ' ' ++ (showNat i ++ (List.replicate n₂ ' ' ++ (")".toList ++ (mid ++
        ("(P:".toList ++ (List.replicate n₃ ' ' ++ (pct ++ ("%)".toList ++ tail)))))))))))))) = some [m.val, pct] := by
  have hmove (r : Str) : ∀ y ∈ (m.val ++ r).head?, isSpace y = false := by
    intro y hy
    rw [List.head?_append_of_ne_nil _ (moveText_ne_nil m)] at hy
    exact moveText_clean m y (List.mem_of_mem_head? hy)
  have hindex (r : Str) : ∀ y ∈ (showNat i ++ r).head?, isSpace y = false := by
    intro y hy
    rw [List.head?_append_of_ne_nil _ (showNat_ne_nil i)] at hy
    exact isSpace_showNat (List.mem_of_mem_head? hy)
  have hclose (r : Str) : ∀ y ∈ (List.replicate n₂ ' ' ++ (")".toList ++ r)).head?, y.isDigit = false := by
    intro y hy
    cases n₂ with
    | zero => rw [← show ')' = y by simpa using hy]; rfl
    | succ n => rw [← show ' ' = y by simpa [List.replicate_succ] using hy]; rfl
  have hrest : 'P' ∉ List.replicate n₃ ' ' ++ (pct ++ ("%)".toList ++ tail)) := by
    simp only [List.mem_append, not_or]
    refine ⟨fun h => ?_, fun h => ?_, by decide, htail⟩
    · exact absurd (List.mem_replicate.mp h).2 (by decide)
    · exact absurd (hpct _ h) (by decide)
  obtain ⟨c, hc, hgroups⟩ := run_percent (b := lastOf (lastOf (lastOf (lastOf (lastOf (lastOf (lastOf (lastOf (lastOf
    (lastOf none "info string".toList) (List.replicate 1 ' ')) m.val) (List.replicate (n₁ + 1) ' ')) "(".toList)
    (List.replicate 0 ' ')) (showNat i)) (List.replicate n₂ ' ')) ")".toList) mid) (g := [] ++ [m.val])
    n₃ tail hne hpct
  rw [matchStart, Option.map_eq_some_iff]
  refine ⟨c, ?_, hgroups⟩
  rw [policyPattern, run_literal]
  apply run_someBlanks 0 (hmove _)
  apply run_move m (by intro y hy; rw [← show ' ' = y by simpa [List.replicate_succ] using hy]; rfl)
  apply run_someBlanks n₁ (by intro y hy; rw [← show '(' = y by simpa using hy]; rfl)
  rw [run_literal]
  apply run_blanks 0 (hindex _)
  apply run_number i (hclose _)
  apply run_blanks n₂ (by intro y hy; rw [← show ')' = y by simpa using hy]; rfl)
  rw [run_literal]
  -- `.*` runs to the end of the line and gives back until the last percentage fits.
  exact manyRun_giveBack (fun x hx => by rw [bne_iff_ne]; rintro rfl; exact hmid hx)
    (fun _ _ hv hne => percent_none hrest hv hne) hc

theorem commentLine_eq {comment : Str} (h : comment ≠ []) : commentLine comment = "info string ".toList ++ comment := by
  have hdepth : (if (0 : Int) ≤ -1 then some (showInt (max (-1) 1)) else none) = none := rfl
  unfold commentLine outputThinkingInfo
  simp only [show tagged (-1) = none from rfl, show counter (-1) = none from rfl, hdepth, sideText, Option.map_none,
    fieldText, ite_self, if_true, if_neg h, List.append_nil]
  exact (List.append_assoc "info".toList " string ".toList comment).symm

/-- Behind the percentage of an edge line. -/
private def edgeTail (fpu : CFloat) (e : RootEdge) : Str :=
  " ".toList ++ (printStats fpu e.node ++ (printField false "(U: ".toList (e.u.fixed 5) ") ".toList 6 ++
    (printField false "(S: ".toList (e.s.fixed 5) ") ".toList 8 ++ printTail e.node)))

/-- Between the index and the percentage of a line. -/
private def countText (n f : Nat) : Str :=
  " ".toList ++ (printField false "N: ".toList (showNat n) " ".toList 7 ++
    printField false "(+".toList (showNat f) ") ".toList 2)

private theorem replicate_blank (n : Nat) (r : Str) : List.replicate n ' ' ++ ' ' :: r = List.replicate (n + 1) ' ' ++ r := by
  rw [List.replicate_succ', List.append_assoc]
  rfl

private theorem edgeLine_parts (f32 : NNRat → NNRat) (fpu : CFloat) (e : RootEdge) :
    "info string ".toList ++ edgeLine f32 fpu e =
      "info string".toList ++ (List.replicate 1 ' ' ++ (e.move.val ++ (List.replicate (5 - e.move.val.length + 1) ' ' ++
      ("(".toList ++ (List.replicate 0 ' ' ++ (showNat e.index ++ (List.replicate (4 - (showNat e.index).length) ' ' ++
        (")".toList ++ (countText e.n e.nInFlight ++ ("(P:".toList ++
          (List.replicate (5 - (percentText f32 e.p).length + 1) ' ' ++ (percentText f32 e.p ++
            ("%)".toList ++ edgeTail fpu e))))))))))))) := by
  unfold edgeLine printHead
  simp only [printField, setwLeft, setwRight, if_true, Bool.false_eq_true, if_false, edgeTail, countText,
    List.append_assoc, List.nil_append, show "(P: ".toList = "(P:".toList ++ [' '] from rfl,
    show ") ".toList = ")".toList ++ [' '] from rfl, show "%) ".toList = "%)".toList ++ [' '] from rfl,
    show " ".toList = [' '] from rfl, List.cons_append, replicate_blank,
    show "info string ".toList = "info string".toList ++ [' '] from rfl]
  rfl

def printedPercent (f32 : NNRat → NNRat) (p : NNRat) : ℚ :=
  shownValue (percentPlaces p) (percent f32 p)

/-- The number that the WL field of the root shows. -/
def RootNode.printedWl (r : RootNode) : ℚ :=
  (if r.wlNeg then -1 else 1) * shownValue 5 r.wlMag

private theorem percentText_numeral (f32 : NNRat → NNRat) (p : NNRat) :
    percentText f32 p ≠ [] ∧ (∀ c ∈ percentText f32 p, isNumeral c = true) ∧
      pyFloat (percentText f32 p) = .ok (printedPercent f32 p) := by
  have htext : percentText f32 p =
      fixedUnits (percentPlaces p) (roundHalfEven (percent f32 p * 10 ^ percentPlaces p)) := rfl
  refine ⟨htext ▸ fixedUnits_ne_nil _ _, fun c hc => ?_, ?_⟩
  · rw [htext] at hc
    rcases mem_fixedUnits hc with rfl | hd
    · rfl
    · rw [isNumeral, hd, Bool.true_or]
  · rw [pyFloat, percentText, readFloat_fixed]
    simp [printedPercent]

private theorem not_infix_of_not_mem {k s : Str} {c : Char} (hk : c ∈ k) (hs : c ∉ s) : ¬ k <:+: s :=
  fun h => hs (h.subset hk)

private theorem edge_not_node (f32 : NNRat → NNRat) (fpu : CFloat) (e : RootEdge) :
    ¬ "info string node".toList <:+: "info string ".toList ++ edgeLine f32 fpu e := by
  intro h
  have hedge : 'o' ∉ edgeLine f32 fpu e := not_mem_edgeLine (by decide) (by decide) (by decide) f32 fpu e
  have hcount := h.sublist.count_le 'o'
  rw [List.count_append, List.count_eq_zero_of_not_mem hedge] at hcount
  exact absurd hcount (by decide)

private theorem edgeLine_ne_nil (f32 : NNRat → NNRat) (fpu : CFloat) (e : RootEdge) : edgeLine f32 fpu e ≠ [] := by
  intro hnil
  have := edgeLine_parts f32 fpu e
  rw [hnil] at this
  exact absurd (congrArg List.length this) (by simp)

/-- An edge line adds its move and its percentage to the policy, and nothing else. -/
theorem onLine_edge (f32 : NNRat → NNRat) (fpu : CFloat) (e : RootEdge) (h : Heads) :
    onLine h (commentLine (edgeLine f32 fpu e)) =
      .ok { h with policy := h.policy ++ [(e.move.val, printedPercent f32 e.p / 100)] } := by
  rw [commentLine_eq (edgeLine_ne_nil f32 fpu e)]
  have hw : 'w' ∉ "info string ".toList ++ edgeLine f32 fpu e := by
    rw [List.mem_append, not_or]
    exact ⟨by decide, not_mem_edgeLine (by decide) (by decide) (by decide) f32 fpu e⟩
  have hwdl : readWdl ("info string ".toList ++ edgeLine f32 fpu e) h = h :=
    if_neg (fun hc => not_infix_of_not_mem (by decide) hw hc.1)
  have hq : readQ ("info string ".toList ++ edgeLine f32 fpu e) h = .ok h := if_neg (edge_not_node f32 fpu e)
  have hbest (h : Heads) : readBestmove ("info string ".toList ++ edgeLine f32 fpu e) h = h :=
    if_neg (fun hc => absurd (List.cons_prefix_cons.mp hc).1 (by decide))
  have hpolicy : readPolicy ("info string ".toList ++ edgeLine f32 fpu e) h =
      .ok { h with policy := h.policy ++ [(e.move.val, printedPercent f32 e.p / 100)] } := by
    have hstarts : "info string".toList <:+: "info string ".toList ++ edgeLine f32 fpu e :=
      (List.IsPrefix.trans ⟨[' '], rfl⟩ (List.prefix_append _ _)).isInfix
    obtain ⟨hnil, hnum, hfloat⟩ := percentText_numeral f32 e.p
    have hmid : '\n' ∉ countText e.n e.nInFlight := by
      simp only [countText, List.mem_append, not_or]
      exact ⟨by decide, not_mem_printField (by decide) (by decide) (not_mem_showNat (by decide) _) (by decide),
        not_mem_printField (by decide) (by decide) (not_mem_showNat (by decide) _) (by decide)⟩
    have htail : 'P' ∉ edgeTail fpu e := by
      simp only [edgeTail, List.mem_append, not_or]
      exact ⟨by decide, not_mem_printStats (by decide) (by decide) _ _,
        not_mem_printField (by decide) (by decide) (not_mem_fixed (by decide) _ _) (by decide),
        not_mem_printField (by decide) (by decide) (not_mem_fixed (by decide) _ _) (by decide),
        not_mem_printTail (by decide) (by decide) _⟩
    have hmatch := match_policy e.move e.index (5 - e.move.val.length) (4 - (showNat e.index).length)
      (5 - (percentText f32 e.p).length + 1) hmid hnil hnum htail
    rw [← edgeLine_parts] at hmatch
    unfold readPolicy
    rw [if_pos ⟨hstarts, edge_not_node f32 fpu e⟩, hmatch]
    simp only [List.getD_cons_succ, List.getD_cons_zero, hfloat]
    rfl
  rw [onLine_eq (by rw [hwdl, hq]) hpolicy, hbest]

/-- The text of the root line in front of its WL field, and behind the field. -/
private def nodeFront (f32 : NNRat → NNRat) (r : RootNode) : Str :=
  "info string ".toList ++ printHead f32 false "node ".toList r.numEdges r.n r.nInFlight r.visitedPolicy

private def nodeBack (r : RootNode) : Str :=
  " ".toList ++ (printField false "(D: ".toList (r.stats.d.fixed 3) ") ".toList 5 ++
    (printField false "(M: ".toList (r.stats.m.fixed 1) ") ".toList 4 ++
      (printField false "(Q: ".toList (r.stats.q.fixed 5) ") ".toList 8 ++ printTail (some r.stats))))

private theorem nodeLine_parts (f32 : NNRat → NNRat) (fpu : CFloat) (r : RootNode) :
    "info string ".toList ++ nodeLine f32 fpu r =
      nodeFront f32 r ++ ("(WL:".toList ++ (List.replicate (8 - (r.stats.wl.fixed 5).length + 1) ' ' ++
        (signText r.wlNeg ++ (fixedUnits 5 (roundHalfEven (r.wlMag * 10 ^ 5)) ++ (")".toList ++ nodeBack r))))) := by
  have hwl : r.stats.wl.fixed 5 = signText r.wlNeg ++ fixedUnits 5 (roundHalfEven (r.wlMag * 10 ^ 5)) := by
    rw [r.wl_finite]
    rfl
  have hwl' : signText r.wlNeg ++ (fixedUnits 5 (roundHalfEven (r.wlMag * 10 ^ 5)) ++ (")".toList ++ nodeBack r)) =
      r.stats.wl.fixed 5 ++ (")".toList ++ nodeBack r) := by rw [hwl, List.append_assoc]
  rw [hwl']
  unfold nodeLine printStats nodeFront nodeBack
  simp only [printField, setwRight, Bool.false_eq_true, if_false, List.append_assoc,
    show "(WL: ".toList = "(WL:".toList ++ [' '] from rfl, show ") ".toList = ")".toList ++ [' '] from rfl,
    show " ".toList = [' '] from rfl, List.cons_append, List.nil_append]
  rfl

private theorem search_behind {front rest : Str} (h : 'W' ∉ front) :
    wlPattern.searchFrom none (front ++ ("(WL:".toList ++ rest)) =
      wlPattern.searchFrom (lastOf none front) ("(WL:".toList ++ rest) := by
  refine searchFrom_text_skip (x := '(') (y := 'W') h (fun z hz => ?_)
  rw [← show '(' = z by simpa using hz]
  decide

private theorem search_wl (f32 : NNRat → NNRat) (fpu : CFloat) (r : RootNode) :
    wlPattern.search ("info string ".toList ++ nodeLine f32 fpu r) = some [r.stats.wl.fixed 5] := by
  have hfront : 'W' ∉ nodeFront f32 r := by
    unfold nodeFront
    rw [List.mem_append, not_or]
    exact ⟨by decide, not_mem_printHead (by decide) (by decide) f32 false (by decide) _ _ _ _⟩
  have hunits (x : Char) (hx : x ∈ fixedUnits 5 (roundHalfEven (r.wlMag * 10 ^ 5))) :
      isNumeral x = true ∧ (x == '+' || x == '-') = false := by
    rcases mem_fixedUnits hx with rfl | hd
    · decide
    · refine ⟨by rw [isNumeral, hd, Bool.true_or], ?_⟩
      rw [Bool.or_eq_false_iff, beq_eq_false_iff_ne, beq_eq_false_iff_ne]
      constructor <;> rintro rfl <;> revert hd <;> decide
  have hsign : (signText r.wlNeg).length ≤ 1 ∧ ∀ x ∈ signText r.wlNeg, (x == '+' || x == '-') = true := by
    cases r.wlNeg <;> decide
  have hhead : ∀ y ∈ (signText r.wlNeg ++ (fixedUnits 5 (roundHalfEven (r.wlMag * 10 ^ 5)) ++
      (")".toList ++ nodeBack r))).head?, isSpace y = false := by
    intro y hy
    cases hneg : r.wlNeg with
    | true => rw [← show '-' = y by simpa [hneg, signText] using hy]; rfl
    | false =>
      rw [hneg, signText, if_neg Bool.false_ne_true, List.nil_append,
        List.head?_append_of_ne_nil _ (fixedUnits_ne_nil _ _)] at hy
      exact space_of_numeral (hunits y (List.mem_of_mem_head? hy)).1
  have hrun : wlPattern.run ⟨lastOf none (nodeFront f32 r), "(WL:".toList ++
      (List.replicate (8 - (r.stats.wl.fixed 5).length + 1) ' ' ++ (signText r.wlNeg ++
        (fixedUnits 5 (roundHalfEven (r.wlMag * 10 ^ 5)) ++ (")".toList ++ nodeBack r)))), []⟩ some =
      some ⟨lastOf (lastOf (lastOf (lastOf (lastOf none (nodeFront f32 r)) "(WL:".toList)
        (List.replicate (8 - (r.stats.wl.fixed 5).length + 1) ' '))
        (signText r.wlNeg ++ fixedUnits 5 (roundHalfEven (r.wlMag * 10 ^ 5)))) ")".toList, nodeBack r,
        [signText r.wlNeg ++ fixedUnits 5 (roundHalfEven (r.wlMag * 10 ^ 5))]⟩ := by
    rw [wlPattern, run_literal]
    apply run_blanks _ hhead
    rw [run_seq]
    apply run_group_signed hsign.1 hsign.2 (fixedUnits_ne_nil _ _) hunits
    · intro y hy
      rw [← show ')' = y by simpa using hy]
      rfl
    · exact run_text_append ")".toList (nodeBack r)
  rw [nodeLine_parts, search, search_behind hfront, searchFrom_here hrun, r.wl_finite]
  rfl

private theorem nodeLine_label (f32 : NNRat → NNRat) (fpu : CFloat) (r : RootNode) :
    ∃ rest, nodeLine f32 fpu r = "node".toList ++ rest := by
  have hlabel : setwRight 5 "node ".toList = "node".toList ++ [' '] := by decide
  unfold nodeLine printHead
  simp only [printField, Bool.false_eq_true, if_false, hlabel, List.append_assoc, List.nil_append]
  exact ⟨_, rfl⟩

/-- The root line sets `q` to the printed WL value, and nothing else. -/
theorem onLine_node (f32 : NNRat → NNRat) (fpu : CFloat) (r : RootNode) (h : Heads) :
    onLine h (commentLine (nodeLine f32 fpu r)) = .ok { h with q := some r.printedWl } := by
  obtain ⟨rest, hrest⟩ := nodeLine_label f32 fpu r
  have hne : nodeLine f32 fpu r ≠ [] := by
    rw [hrest]
    exact List.cons_ne_nil _ _
  rw [commentLine_eq hne]
  have hnode : "info string node".toList <:+: "info string ".toList ++ nodeLine f32 fpu r := by
    rw [hrest]
    exact List.IsPrefix.isInfix ⟨rest, rfl⟩
  have hw : 'w' ∉ "info string ".toList ++ nodeLine f32 fpu r := by
    rw [List.mem_append, not_or]
    exact ⟨by decide, not_mem_nodeLine (by decide) (by decide) (by decide) f32 fpu r⟩
  have hwdl : readWdl ("info string ".toList ++ nodeLine f32 fpu r) h = h :=
    if_neg (fun hc => not_infix_of_not_mem (by decide) hw hc.1)
  have hfloat : pyFloat (r.stats.wl.fixed 5) = .ok r.printedWl := by
    rw [pyFloat, r.wl_finite, readFloat_fixed]
    rfl
  have hq : readQ ("info string ".toList ++ nodeLine f32 fpu r) h = .ok { h with q := some r.printedWl } := by
    unfold readQ
    rw [if_pos hnode, search_wl]
    simp only [List.getD_cons_zero, hfloat]
    rfl
  have hpolicy (h : Heads) : readPolicy ("info string ".toList ++ nodeLine f32 fpu r) h = .ok h :=
    if_neg (fun hc => hc.2 hnode)
  have hbest (h : Heads) : readBestmove ("info string ".toList ++ nodeLine f32 fpu r) h = h :=
    if_neg (fun hc => absurd (List.cons_prefix_cons.mp hc).1 (by decide))
  rw [onLine_eq (by rw [hwdl, hq]) (hpolicy _), hbest]

/-- What `SendUciInfo` leaves at its default, and the depth it always sets. -/
structure IsSearchInfo (info : ThinkingInfo) : Prop where
  player : info.player = -1
  gameId : info.gameId = -1
  isBlack : info.isBlack = none
  comment : info.comment = []
  depth : 0 ≤ info.depth

private def named (name : List Str) (value : Option Str) : List Str := value.elim [] (fun v => name ++ [v])

private theorem fieldText_named (name : String) (value : Option Str) :
    fieldText name value = (named [name.toList] value).flatMap (fun w => ' ' :: w) := by
  cases value with
  | none => rfl
  | some v => simp [fieldText, named]

private theorem fieldText_score (kind : String) (value : Option Str) (name : String)
    (hn : name.toList = "score".toList ++ ' ' :: kind.toList) :
    fieldText name value = (named ["score".toList, kind.toList] value).flatMap (fun w => ' ' :: w) := by
  cases value with
  | none => rfl
  | some v =>
    simp only [fieldText, hn, named, Option.elim_some, List.cons_append, List.nil_append, List.flatMap_cons,
      List.flatMap_nil, List.append_nil, List.append_assoc]

private def frontWords (info : ThinkingInfo) : List Str :=
  ["depth".toList, showInt (max info.depth 1)] ++ named ["seldepth".toList] (counter info.seldepth)
    ++ named ["time".toList] (counter info.time) ++ named ["nodes".toList] (counter info.nodes)
    ++ named ["score".toList, "mate".toList] (info.mate.map showInt)
    ++ named ["score".toList, "cp".toList] (info.score.map showInt)

private def wdlWords : Option (Nat × Nat × Nat) → List Str
  | none => []
  | some (w, d, l) => ["wdl".toList, showNat w, showNat d, showNat l]

private def backWords (showMovesleft : Bool) (info : ThinkingInfo) : List Str :=
  named ["movesleft".toList] (if showMovesleft then info.movesLeft.map showInt else none)
    ++ named ["hashfull".toList] (counter info.hashfull) ++ named ["nps".toList] (counter info.nps)
    ++ named ["tbhits".toList] (counter info.tbHits) ++ named ["multipv".toList] (counter info.multipv)
    ++ (if info.pv = [] then [] else "pv".toList :: info.pv.map Subtype.val)

private theorem thinking_words {info : ThinkingInfo} (h : IsSearchInfo info) (showMovesleft : Bool) :
    outputThinkingInfo true showMovesleft info =
      joined ("info".toList :: (frontWords info ++ wdlWords info.wdl ++ backWords showMovesleft info)) := by
  have hdepth : fieldText "depth" (if 0 ≤ info.depth then some (showInt (max info.depth 1)) else none) =
      ["depth".toList, showInt (max info.depth 1)].flatMap (fun w => ' ' :: w) := by
    rw [if_pos h.depth, fieldText_named]
    rfl
  have hwdl : fieldText "wdl" (info.wdl.map (fun t => joined [showNat t.1, showNat t.2.1, showNat t.2.2])) =
      (wdlWords info.wdl).flatMap (fun w => ' ' :: w) := by
    cases info.wdl with
    | none => rfl
    | some t => simp [fieldText, wdlWords, joined, word]
  have hpv : (if info.pv = [] then [] else " pv".toList ++ info.pv.flatMap (fun m => ' ' :: m.val)) =
      (if info.pv = [] then [] else "pv".toList :: info.pv.map Subtype.val).flatMap (fun w => ' ' :: w) := by
    split
    · rfl
    · rw [List.flatMap_cons, List.flatMap_map]
      rfl
  unfold outputThinkingInfo
  rw [h.player, h.gameId, h.isBlack, if_pos h.comment, hdepth, if_pos rfl, hwdl, hpv, joined_cons]
  simp only [show tagged (-1) = none from rfl, sideText, Option.map_none, fieldText_named "seldepth",
    fieldText_named "time", fieldText_named "nodes", fieldText_score "mate" _ "score mate" rfl,
    fieldText_score "cp" _ "score cp" rfl, fieldText_named "movesleft", fieldText_named "hashfull",
    fieldText_named "nps", fieldText_named "tbhits", fieldText_named "multipv", frontWords, backWords,
    List.flatMap_append, List.append_assoc, List.append_nil]
  rfl

section
variable {P : Str → Prop}

private theorem all_named {name : List Str} {value : Option Str} (hn : ∀ w ∈ name, P w) (hv : ∀ v ∈ value, P v) :
    ∀ w ∈ named name value, P w := by
  cases value with
  | none => exact fun _ h => (List.not_mem_nil h).elim
  | some v =>
    change ∀ w ∈ name ++ [v], P w
    rw [List.forall_mem_append, List.forall_mem_singleton]
    exact ⟨hn, hv v rfl⟩

private theorem all_counter {name : Str} (hn : P name) (hz : ∀ z, P (showInt z)) (n : Int) :
    ∀ w ∈ named [name] (counter n), P w := by
  refine all_named (List.forall_mem_singleton.mpr hn) (fun v hv => ?_)
  rw [counter] at hv
  split at hv
  · rw [← Option.some_inj.mp hv]; exact hz n
  · cases hv

private theorem all_number {name : List Str} (hn : ∀ w ∈ name, P w) (hz : ∀ z, P (showInt z)) (n : Option Int) :
    ∀ w ∈ named name (n.map showInt), P w := by
  refine all_named hn (fun v hv => ?_)
  obtain ⟨z, -, rfl⟩ := Option.map_eq_some_iff.mp hv
  exact hz z

private theorem all_front (info : ThinkingInfo) (hz : ∀ z, P (showInt z))
    (hn : ∀ w ∈ ["depth".toList, "seldepth".toList, "time".toList, "nodes".toList, "score".toList, "mate".toList,
      "cp".toList], P w) : ∀ w ∈ frontWords info, P w := by
  simp only [List.forall_mem_cons] at hn
  obtain ⟨hdepth, hsel, htime, hnodes, hscore, hmate, hcp, hnil⟩ := hn
  have hpair {a b : Str} (ha : P a) (hb : P b) : ∀ w ∈ [a, b], P w :=
    List.forall_mem_cons.mpr ⟨ha, List.forall_mem_singleton.mpr hb⟩
  simp only [frontWords, List.forall_mem_append]
  exact ⟨⟨⟨⟨⟨hpair hdepth (hz _), all_counter hsel hz _⟩, all_counter htime hz _⟩, all_counter hnodes hz _⟩,
    all_number (hpair hscore hmate) hz _⟩, all_number (hpair hscore hcp) hz _⟩

private theorem all_back (showMovesleft : Bool) (info : ThinkingInfo) (hz : ∀ z, P (showInt z))
    (hm : ∀ m : MoveText, P m.val)
    (hn : ∀ w ∈ ["movesleft".toList, "hashfull".toList, "nps".toList, "tbhits".toList, "multipv".toList, "pv".toList],
      P w) : ∀ w ∈ backWords showMovesleft info, P w := by
  simp only [List.forall_mem_cons] at hn
  obtain ⟨hleft, hhash, hnps, htb, hmulti, hpv, hnil⟩ := hn
  simp only [backWords, List.forall_mem_append]
  refine ⟨⟨⟨⟨⟨?_, all_counter hhash hz _⟩, all_counter hnps hz _⟩, all_counter htb hz _⟩, all_counter hmulti hz _⟩, ?_⟩
  · cases showMovesleft with
    | true => exact all_number (List.forall_mem_singleton.mpr hleft) hz info.movesLeft
    | false => exact hnil
  · split
    · exact hnil
    · rw [List.forall_mem_cons]
      refine ⟨hpv, fun w hw => ?_⟩
      obtain ⟨m, -, rfl⟩ := List.mem_map.mp hw
      exact hm m

end

/-- A word that no test of the loop and no sentinel is looking for. -/
private def Quiet (w : Str) : Prop :=
  (∀ c ∈ w, isSpace c = false) ∧ ¬ "string".toList <+: w ∧ ¬ "bestmove".toList <:+: w

private instance (w : Str) : Decidable (Quiet w) := by unfold Quiet; infer_instance

private theorem quiet_number (z : Int) : Quiet (showInt z) := by
  have hnot {c : Char} (hd : c.isDigit = false) (hm : c ≠ '-') : c ∉ showInt z := by
    intro h
    rcases mem_showInt h with h | h
    · exact hm h
    · rw [hd] at h; cases h
  refine ⟨fun c hc => isSpace_showInt hc, fun h => ?_, fun h => ?_⟩
  · exact hnot (by decide) (by decide) (h.subset (show 's' ∈ "string".toList by decide))
  · exact hnot (by decide) (by decide) (h.subset (show 'm' ∈ "bestmove".toList by decide))

private theorem quiet_move (m : MoveText) : Quiet m.val := by
  refine ⟨moveText_clean m, fun h => ?_, fun h => ?_⟩
  · exact absurd (mem_moveText m _ (h.subset (show 's' ∈ "string".toList by decide))) (by decide)
  · exact absurd (mem_moveText m _ (h.subset (show 'm' ∈ "bestmove".toList by decide))) (by decide)

private theorem quiet_thinking (showMovesleft : Bool) (info : ThinkingInfo) :
    ∀ w ∈ "info".toList :: (frontWords info ++ wdlWords info.wdl ++ backWords showMovesleft info), Quiet w := by
  simp only [List.forall_mem_cons, List.forall_mem_append]
  refine ⟨by decide, ⟨all_front info quiet_number (by decide), ?_⟩, all_back showMovesleft info quiet_number quiet_move (by decide)⟩
  match info.wdl with
  | none => exact fun _ h => (List.not_mem_nil h).elim
  | some (w, d, l) =>
    simp only [wdlWords, List.forall_mem_cons]
    exact ⟨by decide, quiet_number w, quiet_number d, quiet_number l, fun _ h => (List.not_mem_nil h).elim⟩

private theorem quiet_line {ws : List Str} (hws : ∀ w ∈ ws, Quiet w) :
    ¬ "info string".toList <:+: joined ws ∧ ¬ "bestmove".toList <:+: joined ws := by
  have hblank : ∀ w ∈ ws, ' ' ∉ w := fun w hw h => absurd ((hws w hw).1 ' ' h) (by decide)
  constructor
  · intro h
    obtain ⟨w, hw, hpre⟩ := pair_infix_joined (a := "info".toList) (b := "string".toList) (by decide) (by decide) hblank h
    exact (hws w hw).2.1 hpre
  · intro h
    obtain ⟨w, hw, hinf⟩ := infix_joined (by decide) (by decide) h
    exact (hws w hw).2.2 hinf

private theorem wdlTail_space : SpaceFirst wdlTail := spaceFirst_plus

private theorem passes_number (z : Int) : Passes "wdl".toList (showInt z) := passes_showInt z (by decide)

private theorem passes_moveText (m : MoveText) : Passes "wdl".toList m.val :=
  ⟨moveText_clean m, skips_of_not_mem (c := 'w') (by decide) (fun h => absurd (mem_moveText m _ h) (by decide))⟩

private theorem run_blank {a : Pattern} {b : Option Char} {g : List Str} {k : Cursor → Option Cursor} {z : Cursor}
    {r : Str} (n : Nat) (hk : a.run ⟨some ' ', showNat n ++ r, g⟩ k = some z) :
    (seq (plus isSpace) a).run ⟨b, ' ' :: (showNat n ++ r), g⟩ k = some z := by
  have hhead : ∀ y ∈ (showNat n ++ r).head?, isSpace y = false := by
    intro y hy
    rw [List.head?_append_of_ne_nil _ (showNat_ne_nil n)] at hy
    exact isSpace_showNat (List.mem_of_mem_head? hy)
  have h := run_someBlanks (b := b) 0 hhead (show a.run ⟨lastOf b (List.replicate (0 + 1) ' '), showNat n ++ r, g⟩ k = _ from hk)
  exact h

private theorem search_wdl (info : ThinkingInfo) (showMovesleft : Bool) :
    wdlPattern.search (joined ("info".toList :: (frontWords info ++ wdlWords info.wdl ++ backWords showMovesleft info))) =
      info.wdl.map (fun t => [showNat t.1, showNat t.2.1, showNat t.2.2]) := by
  have hfront : ∀ w ∈ "info".toList :: frontWords info, Passes "wdl".toList w :=
    List.forall_mem_cons.mpr ⟨by decide, all_front info passes_number (by decide)⟩
  have hback : ∀ w ∈ backWords showMovesleft info, Passes "wdl".toList w :=
    all_back showMovesleft info passes_number passes_moveText (by decide)
  cases h : info.wdl with
  | none =>
    have hall : ∀ w ∈ "info".toList :: (frontWords info ++ wdlWords none ++ backWords showMovesleft info),
        Passes "wdl".toList w := by
      rw [wdlWords, List.append_nil, ← List.cons_append, List.forall_mem_append]
      exact ⟨hfront, hback⟩
    exact searchFrom_keyed_joined (by decide) wdlTail_space hall
  | some t =>
    obtain ⟨w, d, l⟩ := t
    have hline : joined ("info".toList :: (frontWords info ++ wdlWords (some (w, d, l)) ++ backWords showMovesleft info)) =
        line ("info".toList :: frontWords info) (word "wdl".toList (showNat w ++ ' ' :: (showNat d ++ ' ' ::
          (showNat l ++ (backWords showMovesleft info).flatMap (fun v => ' ' :: v))))) := by
      rw [List.append_assoc, ← List.cons_append]
      rw [show wdlWords (some (w, d, l)) ++ backWords showMovesleft info =
        "wdl".toList :: ([showNat w, showNat d, showNat l] ++ backWords showMovesleft info) from rfl, joined_append]
      rw [show joined ("wdl".toList :: ([showNat w, showNat d, showNat l] ++ backWords showMovesleft info)) =
        word "wdl".toList (word (showNat w) (word (showNat d) (joined (showNat l :: backWords showMovesleft info)))) from rfl,
        joined_cons (showNat l)]
      rfl
    have hhead : ∀ y ∈ ((backWords showMovesleft info).flatMap (fun v => ' ' :: v)).head?, y.isDigit = false := by
      intro y hy
      cases hb : backWords showMovesleft info with
      | nil => rw [hb] at hy; cases hy
      | cons v vs => rw [hb] at hy; rw [← show ' ' = y by simpa using hy]; rfl
    rw [hline]
    refine search_keyed_line _ (by decide) wdlTail_space hfront (c := ⟨lastOf (some ' ') (showNat l),
      (backWords showMovesleft info).flatMap (fun v => ' ' :: v), [showNat w, showNat d, showNat l]⟩) ?_
    apply run_blank w
    rw [run_seq]
    apply run_digits w (fun y hy => by rw [← show ' ' = y by simpa using hy]; rfl)
    apply run_blank d
    rw [run_seq]
    apply run_digits d (fun y hy => by rw [← show ' ' = y by simpa using hy]; rfl)
    apply run_blank l
    exact run_digits l hhead rfl

def tripleRatios (t : Nat × Nat × Nat) : Option (ℚ × ℚ × ℚ) := ratios t.1 t.2.1 t.2.2

/-- A thinking line sets `wdl` when its triple has a positive total, and nothing else. -/
theorem onLine_thinking {info : ThinkingInfo} (hi : IsSearchInfo info) (showMovesleft : Bool) (h : Heads) :
    onLine h (outputThinkingInfo true showMovesleft info) =
      .ok { h with wdl := (info.wdl.bind tripleRatios).or h.wdl } := by
  rw [thinking_words hi]
  obtain ⟨hstring, -⟩ := quiet_line (quiet_thinking showMovesleft info)
  have hsearch := search_wdl info showMovesleft
  have hfirst : ∃ rest, joined ("info".toList :: (frontWords info ++ wdlWords info.wdl ++ backWords showMovesleft info)) =
      "info ".toList ++ "depth".toList ++ rest := by
    rw [joined_cons, frontWords]
    exact ⟨_, rfl⟩
  generalize hl : joined ("info".toList :: (frontWords info ++ wdlWords info.wdl ++ backWords showMovesleft info)) = line
    at hstring hsearch hfirst
  obtain ⟨rest, hrest⟩ := hfirst
  have hdepth : "info depth".toList <:+: line := by
    rw [hrest]
    exact (List.prefix_append _ rest).isInfix
  have hwdl : readWdl line h = { h with wdl := (info.wdl.bind tripleRatios).or h.wdl } := by
    cases hw : info.wdl with
    | none =>
      rw [hw] at hsearch
      exact readWdl_none h hsearch
    | some t =>
      rw [hw] at hsearch
      refine readWdl_some h ?_ hdepth hsearch
      rw [← hl, hw]
      exact infix_joined_of_mem (w := "wdl".toList) (by simp [wdlWords])
  have hq : readQ line (readWdl line h) = .ok (readWdl line h) :=
    if_neg (fun hc => hstring (List.IsInfix.trans ⟨[], " node".toList, rfl⟩ hc))
  have hpolicy : readPolicy line (readWdl line h) = .ok (readWdl line h) := if_neg (fun hc => hstring hc.1)
  have hbest (h : Heads) : readBestmove line h = h :=
    if_neg (fun hc => absurd (List.cons_prefix_cons.mp (hrest ▸ hc)).1 (by decide))
  rw [onLine_eq hq hpolicy, hbest, hwdl]

private theorem match_foreign {x : Char} {r : Str} (hs : isSpace x = false) (hf : isFile x = false) :
    policyPattern.matchStart ("info string".toList ++ ' ' :: x :: r) = none := by
  rw [matchStart, policyPattern, run_literal, run_seq, run_plus_cons, if_pos (by decide),
    manyRun_stop (fun y hy => by rw [← show x = y by simpa using hy]; exact hs), run_seq, movePattern, run, run_seq,
    run_one_cons, if_neg (by rw [hf]; decide)]
  rfl

set_option maxRecDepth 2000 in
private theorem warnings_quiet : ∀ c ∈ warnings, ¬ "bestmove".toList <:+: "info string ".toList ++ c := by decide

set_option maxRecDepth 2000 in
theorem onLine_warning {comment : Str} (hc : comment ∈ warnings) (h : Heads) :
    onLine h (commentLine comment) = .ok h := by
  have hall : ∀ c ∈ warnings, c ≠ [] ∧ 'w' ∉ "info string ".toList ++ c ∧
      ¬ "info string node".toList <:+: "info string ".toList ++ c ∧ c.head? = some 'W' := by decide
  obtain ⟨hne, hw, hnode, hhead⟩ := hall comment hc
  have hmatch : policyPattern.matchStart ("info string ".toList ++ comment) = none := by
    obtain ⟨rest, rfl⟩ := List.head?_eq_some_iff.mp hhead
    exact match_foreign (by decide) (by decide)
  rw [commentLine_eq hne]
  have hwdl : readWdl ("info string ".toList ++ comment) h = h :=
    if_neg (fun hc => not_infix_of_not_mem (by decide) hw hc.1)
  have hq : readQ ("info string ".toList ++ comment) h = .ok h := if_neg hnode
  have hpolicy : readPolicy ("info string ".toList ++ comment) h = .ok h := by
    unfold readPolicy
    rw [hmatch]
    exact ite_self _
  have hbest : readBestmove ("info string ".toList ++ comment) h = h :=
    if_neg (fun hc => absurd (List.cons_prefix_cons.mp hc).1 (by decide))
  rw [onLine_eq (by rw [hwdl, hq]) hpolicy, hbest]

private def bestWords (info : BestMoveInfo) : List Str :=
  named ["ponder".toList] (info.ponder.map Subtype.val) ++ named ["player".toList] (tagged info.player)
    ++ named ["gameid".toList] (tagged info.gameId) ++ named ["side".toList] (sideText info.isBlack)

private theorem best_words (info : BestMoveInfo) :
    outputBestMove info = joined ("bestmove".toList :: info.bestmove.val :: bestWords info) := by
  unfold outputBestMove
  rw [joined_cons]
  simp only [fieldText_named "ponder", fieldText_named "player", fieldText_named "gameid", fieldText_named "side",
    bestWords, List.flatMap_cons, List.flatMap_append, List.append_assoc, List.cons_append]
  rfl

/-- A word of the bestmove line, which the loop only takes apart. -/
private def Plain (w : Str) : Prop :=
  (w ≠ [] ∧ ∀ c ∈ w, isSpace c = false) ∧ ¬ "string".toList <+: w ∧ ¬ "wdl".toList <:+: w

private instance (w : Str) : Decidable (Plain w) := by unfold Plain; infer_instance

private theorem plain_number (z : Int) : Plain (showInt z) := by
  refine ⟨⟨showInt_ne_nil z, (quiet_number z).1⟩, (quiet_number z).2.1, fun h => ?_⟩
  rcases mem_showInt (h.subset (show 'w' ∈ "wdl".toList by decide)) with h | h
  · cases h
  · exact absurd h (by decide)

private theorem plain_move (m : MoveText) : Plain m.val := by
  refine ⟨⟨moveText_ne_nil m, moveText_clean m⟩, (quiet_move m).2.1, fun h => ?_⟩
  exact absurd (mem_moveText m _ (h.subset (show 'w' ∈ "wdl".toList by decide))) (by decide)

private theorem plain_best (info : BestMoveInfo) :
    ∀ w ∈ "bestmove".toList :: info.bestmove.val :: bestWords info, Plain w := by
  have htagged (n : Int) : ∀ v ∈ tagged n, Plain v := by
    intro v hv
    rw [tagged] at hv
    split at hv
    · rw [← Option.some_inj.mp hv]; exact plain_number n
    · cases hv
  have hside : ∀ v ∈ sideText info.isBlack, Plain v := by
    match info.isBlack with
    | none => exact fun _ h => by cases h
    | some true => decide
    | some false => decide
  simp only [bestWords, List.forall_mem_cons, List.forall_mem_append]
  refine ⟨by decide, plain_move info.bestmove, ⟨⟨all_named (by decide) ?_, all_named (by decide) (htagged _)⟩,
    all_named (by decide) (htagged _)⟩, all_named (by decide) hside⟩
  intro v hv
  obtain ⟨m, -, rfl⟩ := Option.map_eq_some_iff.mp hv
  exact plain_move m

theorem onLine_bestmove (info : BestMoveInfo) (h : Heads) :
    onLine h (outputBestMove info) = .ok { h with bestmove := some info.bestmove.val } := by
  have hplain := plain_best info
  have hblank : ∀ w ∈ "bestmove".toList :: info.bestmove.val :: bestWords info, ' ' ∉ w :=
    fun w hw hc => absurd ((hplain w hw).1.2 ' ' hc) (by decide)
  rw [best_words]
  have hstarts : "bestmove ".toList <+: joined ("bestmove".toList :: info.bestmove.val :: bestWords info) := ⟨_, rfl⟩
  have hsplit := split_joined _ (fun w hw => (hplain w hw).1)
  have hstring : ¬ "info string".toList <:+: joined ("bestmove".toList :: info.bestmove.val :: bestWords info) := by
    intro hc
    obtain ⟨w, hw, hpre⟩ := pair_infix_joined (a := "info".toList) (b := "string".toList) (by decide) (by decide) hblank hc
    exact (hplain w hw).2.1 hpre
  have hkey : ¬ "wdl".toList <:+: joined ("bestmove".toList :: info.bestmove.val :: bestWords info) := by
    intro hc
    obtain ⟨w, hw, hinf⟩ := infix_joined (by decide) (by decide) hc
    exact (hplain w hw).2.2 hinf
  generalize joined ("bestmove".toList :: info.bestmove.val :: bestWords info) = line at *
  have hwdl : readWdl line h = h := if_neg (fun hc => hkey hc.1)
  have hq : readQ line h = .ok h := if_neg (fun hc => hstring (List.IsInfix.trans ⟨[], " node".toList, rfl⟩ hc))
  have hpolicy : readPolicy line h = .ok h := if_neg (fun hc => hstring hc.1)
  rw [onLine_eq (by rw [hwdl, hq]) hpolicy, readBestmove, if_pos hstarts, hsplit]

/-- A line that a search sends before its verbose lines. -/
inductive Preliminary where
  | thinking (info : ThinkingInfo) (hi : IsSearchInfo info)
  | warning (comment : Str) (hc : comment ∈ warnings)

def Preliminary.print (showMovesleft : Bool) : Preliminary → Str
  | .thinking info _ => outputThinkingInfo true showMovesleft info
  | .warning comment _ => commentLine comment

/-- The `wdl` triple that a line shows, if it has one. -/
def Preliminary.triple : Preliminary → Option (Nat × Nat × Nat)
  | .thinking info _ => info.wdl
  | .warning .. => none

/-- This is the last triple of the lines that has a positive total. -/
def LastTriple (pre : List Preliminary) (w d l : Nat) : Prop :=
  ∃ front p back, pre = front ++ p :: back ∧ p.triple = some (w, d, l) ∧ 0 < w + d + l ∧
    ∀ q ∈ back, ∀ w' d' l', q.triple = some (w', d', l') → w' + d' + l' = 0

/-- The ratios that the triple of a line stands for, if it has one with a positive total. -/
def Preliminary.ratios : Preliminary → Option (ℚ × ℚ × ℚ)
  | .thinking info _ => info.wdl.bind tripleRatios
  | .warning .. => none

/-- The lines of one answer, up to its bestmove line. -/
def answerLines (f32 : NNRat → NNRat) (fpu : CFloat) (showMovesleft : Bool) (pre : List Preliminary)
    (edges : List RootEdge) (node : RootNode) (best : BestMoveInfo) : List Str :=
  pre.map (Preliminary.print showMovesleft) ++ (getVerboseStats f32 fpu edges node).map commentLine ++ [outputBestMove best]

def printedEdge (f32 : NNRat → NNRat) (e : RootEdge) : Str × ℚ := (e.move.val, printedPercent f32 e.p / 100)

private theorem fold_preliminary (showMovesleft : Bool) (pre : List Preliminary) (h : Heads) :
    (pre.map (Preliminary.print showMovesleft)).foldlM onLine h =
      Except.ok { h with wdl := (pre.filterMap Preliminary.ratios).getLast?.or h.wdl } := by
  induction pre generalizing h with
  | nil => rfl
  | cons p pre ih =>
    have hp : onLine h (p.print showMovesleft) = .ok { h with wdl := p.ratios.or h.wdl } := by
      cases p with
      | thinking info hi => exact onLine_thinking hi showMovesleft h
      | warning comment hc => exact onLine_warning hc h
    rw [List.map_cons, List.foldlM_cons, hp]
    change List.foldlM onLine _ (pre.map (Preliminary.print showMovesleft)) = _
    rw [ih, List.filterMap_cons]
    cases p.ratios with
    | none => rfl
    | some r => simp [List.getLast?_cons, Option.or_some]

private theorem fold_edges (f32 : NNRat → NNRat) (fpu : CFloat) (edges : List RootEdge) (h : Heads) :
    ((edges.map (edgeLine f32 fpu)).map commentLine).foldlM onLine h =
      Except.ok { h with policy := h.policy ++ edges.map (printedEdge f32) } := by
  induction edges generalizing h with
  | nil => simp; rfl
  | cons e edges ih =>
    rw [List.map_cons, List.map_cons, List.foldlM_cons, onLine_edge]
    change List.foldlM onLine _ _ = _
    rw [ih]
    simp [printedEdge]

private theorem fold_answer (f32 : NNRat → NNRat) (fpu : CFloat) (showMovesleft : Bool) (pre : List Preliminary)
    (edges : List RootEdge) (node : RootNode) (best : BestMoveInfo) :
    (answerLines f32 fpu showMovesleft pre edges node best).foldlM onLine .empty =
      Except.ok { wdl := (pre.filterMap Preliminary.ratios).getLast?, policy := edges.map (printedEdge f32)
                  q := some node.printedWl, bestmove := some best.bestmove.val } := by
  have hnode (h : Heads) : ([nodeLine f32 fpu node].map commentLine).foldlM onLine h =
      Except.ok { h with q := some node.printedWl } := by
    rw [List.map_singleton, List.foldlM_cons, onLine_node]
    rfl
  have hbest (h : Heads) : [outputBestMove best].foldlM onLine h =
      Except.ok { h with bestmove := some best.bestmove.val } := by
    rw [List.foldlM_cons, onLine_bestmove]
    rfl
  have hbind {h : Heads} {f : Heads → Except ValueError Heads} : (Except.ok h >>= f) = f h := rfl
  rw [answerLines, getVerboseStats, List.map_append, List.foldlM_append, List.foldlM_append, fold_preliminary, hbind,
    List.foldlM_append, fold_edges, hbind, hnode, hbind, hbest]
  simp only [Heads.empty, Option.or_none, List.nil_append]

private theorem no_sentinel {f32 : NNRat → NNRat} {fpu : CFloat} {showMovesleft : Bool} {pre : List Preliminary}
    {edges : List RootEdge} {node : RootNode} :
    ∀ l ∈ pre.map (Preliminary.print showMovesleft) ++ (getVerboseStats f32 fpu edges node).map commentLine,
      ¬ "bestmove".toList <:+: l := by
  have hcomment {comment : Str} (hne : comment ≠ []) (hv : 'v' ∉ comment) : ¬ "bestmove".toList <:+: commentLine comment := by
    rw [commentLine_eq hne]
    refine not_infix_of_not_mem (c := 'v') (by decide) ?_
    rw [List.mem_append, not_or]
    exact ⟨by decide, hv⟩
  simp only [getVerboseStats, List.forall_mem_append, List.forall_mem_map, List.forall_mem_singleton]
  refine ⟨fun p _ => ?_, fun e _ => ?_, ?_⟩
  · cases p with
    | thinking info hi =>
      rw [Preliminary.print, thinking_words hi]
      exact (quiet_line (quiet_thinking showMovesleft info)).2
    | warning comment hc =>
      have hall : ∀ c ∈ warnings, c ≠ [] := by decide
      have hall' : ∀ c ∈ warnings, ¬ "bestmove".toList <:+: "info string ".toList ++ c := warnings_quiet
      rw [Preliminary.print, commentLine_eq (hall comment hc)]
      exact hall' comment hc
  · exact hcomment (edgeLine_ne_nil f32 fpu e) (not_mem_edgeLine (by decide) (by decide) (by decide) f32 fpu e)
  · obtain ⟨rest, hrest⟩ := nodeLine_label f32 fpu node
    refine hcomment (by rw [hrest]; exact List.cons_ne_nil _ _) ?_
    exact not_mem_nodeLine (by decide) (by decide) (by decide) f32 fpu node

/-- `query` returns exactly what lc0 printed, whatever comes behind the bestmove line. -/
theorem query_answer (f32 : NNRat → NNRat) (fpu : CFloat) (showMovesleft : Bool) (pre : List Preliminary)
    (edges : List RootEdge) (node : RootNode) (best : BestMoveInfo) (rest : List (Option Str)) :
    query ((answerLines f32 fpu showMovesleft pre edges node best).map some ++ rest) =
      .ok { wdl := (pre.filterMap Preliminary.ratios).getLast?, policy := sortPolicy (edges.map (printedEdge f32))
            q := some node.printedWl, bestmove := some best.bestmove.val } := by
  have hbest : "bestmove".toList <:+: outputBestMove best := by
    rw [best_words]
    exact infix_joined_of_mem (by simp)
  rw [query, answerLines, drainUntil_append rest no_sentinel hbest, headsOf, ← answerLines, fold_answer]
  rfl

theorem ratios_sum {w d l : Nat} {r : ℚ × ℚ × ℚ} (h : ratios w d l = some r) :
    (0 ≤ r.1 ∧ r.1 ≤ 1) ∧ (0 ≤ r.2.1 ∧ r.2.1 ≤ 1) ∧ (0 ≤ r.2.2 ∧ r.2.2 ≤ 1) ∧ r.1 + r.2.1 + r.2.2 = 1 := by
  rw [ratios] at h
  split at h
  · rename_i hpos
    have hpos' : (0 : ℚ) < ((w + d + l : Nat) : ℚ) := by exact_mod_cast hpos
    have hpart {n : Nat} (hn : n ≤ w + d + l) :
        0 ≤ (n : ℚ) / ((w + d + l : Nat) : ℚ) ∧ (n : ℚ) / ((w + d + l : Nat) : ℚ) ≤ 1 := by
      refine ⟨div_nonneg (Nat.cast_nonneg n) hpos'.le, (div_le_one hpos').mpr (by exact_mod_cast hn)⟩
    rw [← Option.some_inj.mp h]
    refine ⟨hpart (by omega), hpart (by omega), hpart (by omega), ?_⟩
    rw [← add_div, ← add_div, div_eq_one_iff_eq hpos'.ne']
    push_cast
    rfl
  · cases h

private theorem ratios_eq_none {p : Preliminary} :
    p.ratios = none ↔ ∀ w d l, p.triple = some (w, d, l) → w + d + l = 0 := by
  cases p with
  | warning comment hc => exact iff_of_true rfl fun w d l h => by cases h
  | thinking info hi =>
    cases hwdl : info.wdl with
    | none => simp [Preliminary.ratios, Preliminary.triple, hwdl]
    | some t =>
      obtain ⟨w, d, l⟩ := t
      have hratios : (Preliminary.thinking info hi).ratios = Lc0.ratios w d l := by
        rw [Preliminary.ratios, hwdl]
        rfl
      rw [hratios, Lc0.ratios, Preliminary.triple, hwdl]
      simp

private theorem ratios_of_triple {p : Preliminary} {w d l : Nat} (h : p.triple = some (w, d, l)) (hpos : 0 < w + d + l) :
    p.ratios = some ((w : ℚ) / (w + d + l), (d : ℚ) / (w + d + l), (l : ℚ) / (w + d + l)) := by
  cases p with
  | warning comment hc => cases h
  | thinking info hi =>
    have hwdl : info.wdl = some (w, d, l) := h
    rw [Preliminary.ratios, hwdl, Option.bind_some, tripleRatios, Lc0.ratios, if_pos hpos]
    push_cast
    rfl

private theorem last_ratios (pre : List Preliminary) :
    (∀ w d l, LastTriple pre w d l → (pre.filterMap Preliminary.ratios).getLast? =
      some ((w : ℚ) / (w + d + l), (d : ℚ) / (w + d + l), (l : ℚ) / (w + d + l))) ∧
    ((pre.filterMap Preliminary.ratios).getLast? = none ↔
      ∀ p ∈ pre, ∀ w d l, p.triple = some (w, d, l) → w + d + l = 0) := by
  constructor
  · rintro w d l ⟨front, p, back, rfl, htriple, hpos, hback⟩
    have hnone : back.filterMap Preliminary.ratios = [] :=
      List.filterMap_eq_nil_iff.mpr fun q hq => ratios_eq_none.mpr (hback q hq)
    rw [List.filterMap_append, List.filterMap_cons_some (ratios_of_triple htriple hpos), hnone, List.getLast?_append]
    rfl
  · rw [List.getLast?_eq_none_iff, List.filterMap_eq_nil_iff]
    exact forall₂_congr fun p _ => ratios_eq_none

/-- `query` decodes a whole answer of lc0. The policy is a permutation of the printed pairs,
sorted by prior; `q` is the printed WL value of the root; `wdl` is the last triple with a
positive total, divided by it, and there is none without such a triple; `bestmove` is the move of
the bestmove line. -/
theorem query_decodes (f32 : NNRat → NNRat) (fpu : CFloat) (showMovesleft : Bool) (pre : List Preliminary)
    (edges : List RootEdge) (node : RootNode) (best : BestMoveInfo) (rest : List (Option Str)) :
    ∃ h, query ((answerLines f32 fpu showMovesleft pre edges node best).map some ++ rest) = .ok h ∧
      h.policy.Perm (edges.map (printedEdge f32)) ∧ h.policy.Pairwise (fun a b => b.2 ≤ a.2) ∧
      h.q = some node.printedWl ∧
      (∀ w d l, LastTriple pre w d l →
        h.wdl = some ((w : ℚ) / (w + d + l), (d : ℚ) / (w + d + l), (l : ℚ) / (w + d + l))) ∧
      (h.wdl = none ↔ ∀ p ∈ pre, ∀ w d l, p.triple = some (w, d, l) → w + d + l = 0) ∧
      (∀ r ∈ h.wdl, (0 ≤ r.1 ∧ r.1 ≤ 1) ∧ (0 ≤ r.2.1 ∧ r.2.1 ≤ 1) ∧ (0 ≤ r.2.2 ∧ r.2.2 ≤ 1) ∧
        r.1 + r.2.1 + r.2.2 = 1) ∧
      h.bestmove = some best.bestmove.val := by
  obtain ⟨hlast, hnone⟩ := last_ratios pre
  refine ⟨_, query_answer f32 fpu showMovesleft pre edges node best rest, sortPolicy_perm _, sortPolicy_sorted _, rfl,
    hlast, hnone, fun r hr => ?_, rfl⟩
  have hmem := List.mem_of_getLast? (Option.mem_def.mp hr)
  obtain ⟨p, -, hp⟩ := List.mem_filterMap.mp hmem
  cases p with
  | thinking info hi =>
    obtain ⟨t, -, ht⟩ := Option.bind_eq_some_iff.mp hp
    exact ratios_sum ht
  | warning comment hc => cases hp

end ChessAnalytics.Lc0
