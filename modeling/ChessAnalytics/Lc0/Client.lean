import ChessAnalytics.Strings.Fixed
import ChessAnalytics.Systems.Traversal

/-! The reading side of `Lc0UCI.query`. -/
namespace ChessAnalytics.Lc0
open Strings Pattern

/-- The dictionary that `query` returns. -/
structure Heads where
  wdl : Option (ℚ × ℚ × ℚ)
  policy : List (Str × ℚ)
  q : Option ℚ
  bestmove : Option Str
  deriving DecidableEq

def Heads.empty : Heads := ⟨none, [], none, none⟩

structure ValueError where
  text : Str
  deriving DecidableEq, Repr

/-- `float(text)`. -/
def pyFloat (text : Str) : Except ValueError ℚ :=
  match readFloat text with
  | some x => .ok x
  | none => .error ⟨text⟩

def isFile (c : Char) : Bool := 'a' ≤ c && c ≤ 'h'
def isRank (c : Char) : Bool := '1' ≤ c && c ≤ '8'
def isPromotion (c : Char) : Bool := c ∈ "qrbn".toList
def isNumeral (c : Char) : Bool := c.isDigit || c == '.'

/-- `\bwdl\s+(\d+)\s+(\d+)\s+(\d+)`. -/
def wdlTail : Pattern :=
  seq (plus isSpace) (seq digits (seq (plus isSpace) (seq digits (seq (plus isSpace) digits))))

def wdlPattern : Pattern := keyed "wdl".toList wdlTail

/-- `\(WL:\s*([+-]?[\d.]+)\)`. -/
def wlPattern : Pattern :=
  seq (text "(WL:".toList) (seq (many isSpace)
    (seq (group (seq (opt (one (fun c => c == '+' || c == '-'))) (plus isNumeral))) (text ")".toList)))

/-- `([a-h][1-8][a-h][1-8][qrbn]?)`. -/
def movePattern : Pattern :=
  group (seq (one isFile) (seq (one isRank) (seq (one isFile) (seq (one isRank) (opt (one isPromotion))))))

/-- `(P:\s*([\d.]+)%)`, behind everything else on the line. -/
def percentPattern : Pattern :=
  seq (text "(P:".toList) (seq (many isSpace) (seq (group (plus isNumeral)) (text "%)".toList)))

/-- `info string\s+MOVE\s+\(\s*\d+\s*\).*\(P:\s*([\d.]+)%\)`. -/
def policyPattern : Pattern :=
  seq (text "info string".toList) (seq (plus isSpace) (seq movePattern (seq (plus isSpace) (seq (text "(".toList)
    (seq (many isSpace) (seq (plus Char.isDigit) (seq (many isSpace) (seq (text ")".toList)
      (seq (many (· != '\n')) percentPattern)))))))))

/-- A triple divided by its total, when the total is positive. -/
def ratios (w d l : Nat) : Option (ℚ × ℚ × ℚ) :=
  let total := w + d + l
  if total > 0 then some ((w : ℚ) / total, (d : ℚ) / total, (l : ℚ) / total) else none

/-- The value-head test of the loop. -/
def readWdl (line : Str) (h : Heads) : Heads :=
  if "wdl".toList <:+: line ∧ "info depth".toList <:+: line then
    match wdlPattern.search line with
    | some g =>
      match ratios (readNat (g.getD 0 [])) (readNat (g.getD 1 [])) (readNat (g.getD 2 [])) with
      | some wdl => { h with wdl := some wdl }
      | none => h
    | none => h
  else h

/-- The root-node test of the loop. -/
def readQ (line : Str) (h : Heads) : Except ValueError Heads :=
  if "info string node".toList <:+: line then
    match wlPattern.search line with
    | some g => do
      let q ← pyFloat (g.getD 0 [])
      return { h with q := some q }
    | none => return h
  else return h

/-- The policy test of the loop. -/
def readPolicy (line : Str) (h : Heads) : Except ValueError Heads :=
  if "info string".toList <:+: line ∧ ¬ "info string node".toList <:+: line then
    match policyPattern.matchStart line with
    | some g => do
      let p ← pyFloat (g.getD 1 [])
      return { h with policy := h.policy ++ [(g.getD 0 [], p / 100)] }
    | none => return h
  else return h

/-- The bestmove test of the loop. -/
def readBestmove (line : Str) (h : Heads) : Heads :=
  if "bestmove ".toList <+: line then
    match split line with
    | _ :: best :: _ => { h with bestmove := some best }
    | _ => h
  else h

/-- One turn of the loop of `query`. -/
def onLine (h : Heads) (line : Str) : Except ValueError Heads := do
  let h ← readQ line (readWdl line h)
  let h ← readPolicy line h
  return readBestmove line h

theorem readWdl_none {line : Str} (h : Heads) (hs : wdlPattern.search line = none) : readWdl line h = h := by
  unfold readWdl
  rw [hs]
  exact ite_self h

theorem readWdl_some {line : Str} (h : Heads) {w d l : Nat} (hkey : "wdl".toList <:+: line)
    (hdepth : "info depth".toList <:+: line)
    (hs : wdlPattern.search line = some [showNat w, showNat d, showNat l]) :
    readWdl line h = { h with wdl := (ratios w d l).or h.wdl } := by
  unfold readWdl
  rw [if_pos ⟨hkey, hdepth⟩, hs]
  simp only [List.getD_cons_zero, List.getD_cons_succ, readNat_showNat]
  cases ratios w d l <;> rfl

theorem onLine_eq {h h₁ h₂ : Heads} {line : Str} (hq : readQ line (readWdl line h) = .ok h₁)
    (hp : readPolicy line h₁ = .ok h₂) : onLine h line = .ok (readBestmove line h₂) := by
  rw [onLine, hq]
  change (do let h ← readPolicy line h₁; return readBestmove line h) = _
  rw [hp]
  rfl

/-- `policy.sort(key=lambda x: x[1], reverse=True)`, which keeps the order of equal priors. -/
def sortPolicy (policy : List (Str × ℚ)) : List (Str × ℚ) :=
  policy.mergeSort (fun a b => decide (b.2 ≤ a.2))

/-- What `query` computes from the lines it has drained. -/
def headsOf (rawLines : List Str) : Except ValueError Heads := do
  let h ← rawLines.foldlM onLine .empty
  return { h with policy := sortPolicy h.policy }

theorem sortPolicy_perm (policy : List (Str × ℚ)) : (sortPolicy policy).Perm policy := List.mergeSort_perm _ _

theorem sortPolicy_sorted (policy : List (Str × ℚ)) : (sortPolicy policy).Pairwise (fun a b => b.2 ≤ a.2) := by
  have htrans (a b c : Str × ℚ) (hab : decide (b.2 ≤ a.2) = true) (hbc : decide (c.2 ≤ b.2) = true) :
      decide (c.2 ≤ a.2) = true := by
    simp only [decide_eq_true_eq] at hab hbc ⊢
    exact hbc.trans hab
  have htotal (a b : Str × ℚ) : (decide (b.2 ≤ a.2) || decide (a.2 ≤ b.2)) = true := by
    simpa using le_total b.2 a.2
  exact (List.pairwise_mergeSort htrans htotal policy).imp (fun hab => by simpa using hab)

/-- `_drain_until` on the entries that the queue hands over before the deadline: lines, and
`none` for the end of the output. -/
def drainUntil (sentinel : Str) : List (Option Str) → List Str
  | [] => []
  | none :: _ => []
  | some line :: entries => line :: if sentinel <:+: line then [] else drainUntil sentinel entries

theorem drainUntil_append {sentinel : Str} {ls : List Str} {l : Str} (rest : List (Option Str))
    (hls : ∀ x ∈ ls, ¬ sentinel <:+: x) (hl : sentinel <:+: l) :
    drainUntil sentinel ((ls ++ [l]).map some ++ rest) = ls ++ [l] := by
  induction ls with
  | nil => simp [drainUntil, hl]
  | cons x ls ih =>
    have hx : ¬ sentinel <:+: x := hls x (by simp)
    simp only [List.cons_append, List.map_cons, drainUntil, if_neg hx]
    rw [ih (fun y hy => hls y (List.mem_cons_of_mem _ hy))]

theorem drainUntil_open {s : Str} {ls : List Str} (h : ∀ l ∈ ls, ¬ s <:+: l) {rest : List (Option Str)}
    (hrest : rest = [] ∨ rest = [none]) : drainUntil s (ls.map some ++ rest) = ls := by
  induction ls with
  | nil => rcases hrest with rfl | rfl <;> rfl
  | cons l ls ih =>
    rw [List.map_cons, List.cons_append, drainUntil, if_neg (h l (by simp)), ih fun x hx => h x (List.mem_cons_of_mem _ hx)]

/-- `query`, when the queue hands over these entries. -/
def query (entries : List (Option Str)) : Except ValueError Heads := headsOf (drainUntil "bestmove".toList entries)

theorem query_sorted {entries : List (Option Str)} {h : Heads} (hquery : query entries = .ok h) :
    h.policy.Pairwise (fun a b => b.2 ≤ a.2) := by
  rw [query, headsOf] at hquery
  obtain ⟨heads, -, hsorted⟩ := Systems.bind_ok hquery
  rw [← Except.ok.inj hsorted]
  exact sortPolicy_sorted heads.policy

end ChessAnalytics.Lc0
