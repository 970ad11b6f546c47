import Mathlib.Data.Prod.Lex
import Mathlib.Logic.Relation
import ChessAnalytics.Systems.Reader

/-! A client and a server joined by two FIFO pipes. The client works through blocks: it
sends the commands of a block, then reads until the block's reader is satisfied. It never
waits between two commands, so both pipes can hold several entries. -/
namespace ChessAnalytics.Systems

/-- What a server may print for a command, and the state it is in behind that command. -/
structure Server (Cmd Line S : Type) where
  start : S
  answers : S → Cmd → List Line → S → Prop

/-- Commands to send, and whether reading ends behind the lines read so far. -/
structure Block (Cmd Line : Type) where
  sends : List Cmd
  stops : List Line → Bool

/-- A command with the number of the block that sent it and the lines printed for it. -/
structure Answered (Cmd Line : Type) where
  call : Nat
  command : Cmd
  lines : List Line

/-- Both processes and both pipes. Commands and lines carry the number of their block. -/
structure Session (Cmd Line S : Type) where
  unsent : List Cmd
  got : List (Nat × Line)
  finished : List (List (Nat × Line))
  commands : List (Nat × Cmd)
  server : S
  printing : List (Nat × Line)
  output : List (Nat × Line)
  log : List (Answered Cmd Line)

variable {Cmd Line S : Type}

/-- The commands that a list of blocks sends in its `i`-th block. -/
def sendsAt (blocks : List (Block Cmd Line)) (i : Nat) : List Cmd := (blocks[i]?.map Block.sends).getD []

namespace Session

/-- The number of the block that the client works on. -/
def call (s : Session Cmd Line S) : Nat := s.finished.length

def entriesOf (s : Session Cmd Line S) (i : Nat) : List (Answered Cmd Line) := s.log.filter (·.call = i)

/-- The commands of one block that the server has taken. -/
def commandsOf (s : Session Cmd Line S) (i : Nat) : List Cmd := (s.entriesOf i).map Answered.command

/-- The lines that the server printed, or is printing, for the commands of one block. -/
def outputOf (s : Session Cmd Line S) (i : Nat) : List Line := (s.entriesOf i).flatMap Answered.lines

def start (sv : Server Cmd Line S) (blocks : List (Block Cmd Line)) : Session Cmd Line S :=
  { unsent := sendsAt blocks 0, got := [], finished := [], commands := [], server := sv.start
    printing := [], output := [], log := [] }

/-- One step of either process. -/
inductive Step (sv : Server Cmd Line S) (blocks : List (Block Cmd Line)) :
    Session Cmd Line S → Session Cmd Line S → Prop where
  | send {s : Session Cmd Line S} {c : Cmd} {cs : List Cmd} (hu : s.unsent = c :: cs) :
      Step sv blocks s { s with unsent := cs, commands := s.commands ++ [(s.call, c)] }
  | take {s : Session Cmd Line S} {i : Nat} {c : Cmd} {cs : List (Nat × Cmd)} {ls : List Line} {t : S}
      (hp : s.printing = []) (hc : s.commands = (i, c) :: cs) (ha : sv.answers s.server c ls t) :
      Step sv blocks s { s with commands := cs, server := t, printing := ls.map (i, ·), log := s.log ++ [⟨i, c, ls⟩] }
  | print {s : Session Cmd Line S} {x : Nat × Line} {xs : List (Nat × Line)} (hp : s.printing = x :: xs) :
      Step sv blocks s { s with printing := xs, output := s.output ++ [x] }
  | read {s : Session Cmd Line S} {b : Block Cmd Line} {x : Nat × Line} {xs : List (Nat × Line)}
      (hu : s.unsent = []) (hb : blocks[s.call]? = some b) (ho : s.output = x :: xs)
      (hs : b.stops ((s.got ++ [x]).map Prod.snd) = false) :
      Step sv blocks s { s with output := xs, got := s.got ++ [x] }
  | finish {s : Session Cmd Line S} {b : Block Cmd Line} {x : Nat × Line} {xs : List (Nat × Line)}
      (hu : s.unsent = []) (hb : blocks[s.call]? = some b) (ho : s.output = x :: xs)
      (hs : b.stops ((s.got ++ [x]).map Prod.snd) = true) :
      Step sv blocks s
        { s with output := xs, got := [], finished := s.finished ++ [s.got ++ [x]], unsent := sendsAt blocks (s.call + 1) }

/-- The states that some interleaving of the two processes leads to. -/
def Reachable (sv : Server Cmd Line S) (blocks : List (Block Cmd Line)) : Session Cmd Line S → Prop :=
  Relation.ReflTransGen (Step sv blocks) (start sv blocks)

end Session

/-- The server works through commands one after the other. -/
def Server.Exec (sv : Server Cmd Line S) : S → List (Answered Cmd Line) → S → Prop
  | s, [], t => s = t
  | s, e :: es, t => ∃ u, sv.answers s e.command e.lines u ∧ sv.Exec u es t

theorem Server.Exec.append {sv : Server Cmd Line S} {s t u : S} {es fs : List (Answered Cmd Line)}
    (h : sv.Exec s es t) (hf : sv.Exec t fs u) : sv.Exec s (es ++ fs) u := by
  induction es generalizing s with
  | nil => cases h; exact hf
  | cons e es ih =>
    obtain ⟨v, hv, h⟩ := h
    exact ⟨v, hv, ih h⟩

theorem Server.Exec.of_append {sv : Server Cmd Line S} {s u : S} {es fs : List (Answered Cmd Line)}
    (h : sv.Exec s (es ++ fs) u) : ∃ t, sv.Exec s es t ∧ sv.Exec t fs u := by
  induction es generalizing s with
  | nil => exact ⟨s, rfl, h⟩
  | cons e es ih =>
    obtain ⟨v, hv, h⟩ := h
    obtain ⟨t, ht, hf⟩ := ih h
    exact ⟨t, ⟨v, hv, ht⟩, hf⟩

/-- A command that keeps the server in the states of `I` and is answered by lines of `P`. -/
def Server.Keeps (sv : Server Cmd Line S) (I : S → Prop) (P : Line → Prop) (c : Cmd) : Prop :=
  ∀ s ls t, I s → sv.answers s c ls t → I t ∧ ∀ l ∈ ls, P l

/-- What holds of the answers to all commands holds of all lines. -/
theorem Server.Exec.forall_lines {sv : Server Cmd Line S} {I : S → Prop} {P : Line → Prop} {s t : S}
    {es : List (Answered Cmd Line)} (h : sv.Exec s es t) (hs : I s)
    (hP : ∀ c ∈ es.map Answered.command, sv.Keeps I P c) : I t ∧ ∀ l ∈ es.flatMap Answered.lines, P l := by
  induction es generalizing s with
  | nil => cases h; exact ⟨hs, by simp⟩
  | cons e es ih =>
    obtain ⟨u, hu, h⟩ := h
    simp only [List.map_cons, List.forall_mem_cons] at hP
    obtain ⟨hkeep, hlines⟩ := hP.1 s e.lines u hs hu
    obtain ⟨ht, hrest⟩ := ih h hkeep hP.2
    simp only [List.flatMap_cons, List.forall_mem_append]
    exact ⟨ht, hlines, hrest⟩

theorem Server.Exec.last {sv : Server Cmd Line S} {s t : S} {es : List (Answered Cmd Line)} {cs : List Cmd} {c : Cmd}
    (h : sv.Exec s es t) (hc : es.map Answered.command = cs ++ [c]) :
    ∃ fs f u, es = fs ++ [f] ∧ fs.map Answered.command = cs ∧ sv.Exec s fs u ∧ sv.answers u c f.lines t := by
  obtain ⟨fs, f, rfl⟩ : ∃ fs f, es = fs ++ [f] := by
    rcases List.eq_nil_or_concat es with rfl | ⟨fs, f, hfs⟩
    · simp at hc
    · exact ⟨fs, f, by rw [hfs, List.concat_eq_append]⟩
  simp only [List.map_append, List.map_singleton] at hc
  obtain ⟨hfs, hf⟩ := List.append_inj' hc rfl
  obtain ⟨u, hu, v, hv, hvt⟩ := h.of_append
  rw [List.singleton_inj.mp hf, show v = t from hvt] at hv
  exact ⟨fs, f, u, rfl, hfs, hu, hv⟩

/-- From the states of `I`, which the block never leaves, reading stops exactly where the
answers to all commands of the block end. -/
def Block.Framed (sv : Server Cmd Line S) (I : S → Prop) (b : Block Cmd Line) : Prop :=
  ∀ s es t, I s → sv.Exec s es t → es.map Answered.command <+: b.sends →
    I t ∧ ∀ p, p <+: es.flatMap Answered.lines →
      (b.stops p = true ↔ es.map Answered.command = b.sends ∧ p = es.flatMap Answered.lines)

/-- The commands of a block that reads with `r` until it ends. -/
def Block.reading {σ α : Type} (r : Reader Line σ α) (sends : List Cmd) : Block Cmd Line :=
  ⟨sends, fun got => (r.run got).isSome⟩

/-- A block is framed when only the last line of the answer to its last command ends the
reading. -/
theorem Block.framed_reading {σ α : Type} {r : Reader Line σ α} {sv : Server Cmd Line S} {I : S → Prop}
    {init : List Cmd} {last : Cmd} (hinit : ∀ c ∈ init, sv.Keeps I r.Passes c)
    (hlast : ∀ s ls t, I s → sv.answers s last ls t →
      I t ∧ ∃ xs y, ls = xs ++ [y] ∧ (∀ x ∈ xs, r.Passes x) ∧ r.Ends y) :
    (Block.reading r (init ++ [last])).Framed sv I := by
  intro s es t hs h hpre
  rcases List.prefix_concat_iff.mp hpre with hes | hes
  · obtain ⟨fs, f, u, rfl, hfs, hu, hv⟩ := h.last hes
    obtain ⟨hI, hpass⟩ := hu.forall_lines hs (fun c hc => hinit c (hfs ▸ hc))
    obtain ⟨ht, xs, y, hls, hxs, hy⟩ := hlast u f.lines t hI hv
    have hall : ∀ x ∈ fs.flatMap Answered.lines ++ xs, r.Passes x := List.forall_mem_append.mpr ⟨hpass, hxs⟩
    refine ⟨ht, fun p hp => ?_⟩
    change (r.run p).isSome = true ↔ _ = init ++ [last] ∧ _
    rw [List.flatMap_append, List.flatMap_singleton, hls, ← List.append_assoc] at hp ⊢
    rw [Reader.run, Reader.isSome_run_iff hall hy hp]
    simp [hes]
  · obtain ⟨hI, hpass⟩ := h.forall_lines hs (fun c hc => hinit c (hes.subset hc))
    refine ⟨hI, fun p hp => ?_⟩
    have hnone : r.run p = none := Reader.run_passes (fun x hx => hpass x (hp.subset hx))
    change (r.run p).isSome = true ↔ _ = init ++ [last] ∧ _
    rw [hnone]
    simp only [Option.isSome_none, Bool.false_eq_true, false_iff]
    rintro ⟨heq, -⟩
    have := hes.length_le
    simp only [heq, List.length_append, List.length_singleton] at this
    omega

namespace Session
variable {sv : Server Cmd Line S} {I : S → Prop} {blocks : List (Block Cmd Line)} {s s' : Session Cmd Line S}

/-- A finished block has read exactly the answers to its own commands, which the server
gave behind the commands of the blocks before it. -/
structure Closed (sv : Server Cmd Line S) (I : S → Prop) (blocks : List (Block Cmd Line)) (s : Session Cmd Line S) (i : Nat)
    (ls : List (Nat × Line)) : Prop where
  lines : ls = (s.outputOf i).map (i, ·)
  commands : s.commandsOf i = sendsAt blocks i
  exec : ∃ before u v, before.map Answered.command = (blocks.take i).flatMap Block.sends ∧
    sv.Exec sv.start before u ∧ I u ∧ sv.Exec u (s.entriesOf i) v

/-- Everything in flight belongs to the current block. `past` and `current` split the log
where the current block begins. -/
structure Inv (sv : Server Cmd Line S) (I : S → Prop) (blocks : List (Block Cmd Line)) (s : Session Cmd Line S)
    (past current : List (Answered Cmd Line)) : Prop where
  log : s.log = past ++ current
  past_call : ∀ e ∈ past, e.call < s.call
  current_call : ∀ e ∈ current, e.call = s.call
  exec : ∃ u, sv.Exec sv.start past u ∧ I u ∧ sv.Exec u current s.server
  commands : ∀ x ∈ s.commands, x.1 = s.call
  lines : ∀ x ∈ s.got ++ s.output ++ s.printing, x.1 = s.call
  sends : current.map Answered.command ++ s.commands.map Prod.snd ++ s.unsent = sendsAt blocks s.call
  output : (s.got ++ s.output ++ s.printing).map Prod.snd = current.flatMap Answered.lines
  past_sends : past.map Answered.command = (blocks.take s.call).flatMap Block.sends
  waiting : ∀ b, blocks[s.call]? = some b → b.sends ≠ [] → b.stops (s.got.map Prod.snd) = false
  finished : ∀ i ls, s.finished[i]? = some ls → Closed sv I blocks s i ls

namespace Inv
variable {past current : List (Answered Cmd Line)}

private theorem waits {b : Block Cmd Line} (hI : I sv.start) (hf : b.Framed sv I) (hb : b.sends ≠ []) :
    b.stops [] = false := by
  have h := (hf sv.start [] sv.start hI rfl List.nil_prefix).2 [] List.nil_prefix
  rw [← Bool.not_eq_true, h]
  exact fun hs => hb hs.1.symm

theorem start (hI : I sv.start) (hf : ∀ b ∈ blocks, b.Framed sv I) : Inv sv I blocks (start sv blocks) [] [] where
  log := rfl
  past_call := by simp
  current_call := by simp
  exec := ⟨sv.start, rfl, hI, rfl⟩
  commands := by simp [Session.start]
  lines := by simp [Session.start]
  sends := rfl
  output := rfl
  past_sends := rfl
  waiting b hb hne := waits hI (hf b (List.mem_of_getElem? hb)) hne
  finished := by simp [Session.start]

theorem entriesOf_call (h : Inv sv I blocks s past current) : s.entriesOf s.call = current := by
  have hpast : past.filter (fun e => e.call = s.call) = [] := by
    rw [List.filter_eq_nil_iff]
    intro e he
    have := h.past_call e he
    simp only [decide_eq_true_eq]
    omega
  have hcurrent : current.filter (fun e => e.call = s.call) = current := by
    rw [List.filter_eq_self]
    intro e he
    simpa using h.current_call e he
  rw [entriesOf, h.log, List.filter_append, hpast, hcurrent, List.nil_append]

/-- When the reader of a framed block is satisfied, both pipes are empty and the server is idle. -/
theorem drained {b : Block Cmd Line} {x : Nat × Line} {xs : List (Nat × Line)} (h : Inv sv I blocks s past current)
    (hf : b.Framed sv I) (hb : blocks[s.call]? = some b) (ho : s.output = x :: xs)
    (hs : b.stops ((s.got ++ [x]).map Prod.snd) = true) :
    xs = [] ∧ s.printing = [] ∧ s.commands = [] ∧ current.map Answered.command = b.sends ∧
      (s.got ++ [x]).map Prod.snd = current.flatMap Answered.lines ∧ I s.server := by
  obtain ⟨u, -, hu, hexec⟩ := h.exec
  have hsends := h.sends
  rw [show sendsAt blocks s.call = b.sends by simp [sendsAt, hb]] at hsends
  have houtput := h.output
  rw [ho] at houtput
  have hall : (s.got ++ [x]).map Prod.snd ++ (xs.map Prod.snd ++ s.printing.map Prod.snd) =
      current.flatMap Answered.lines := by
    rw [← houtput]
    simp
  have hpre : current.map Answered.command <+: b.sends :=
    ⟨s.commands.map Prod.snd ++ s.unsent, by rw [← hsends, List.append_assoc]⟩
  obtain ⟨hI, hstops⟩ := hf u current s.server hu hexec hpre
  obtain ⟨hcmd, hread⟩ := (hstops _ ⟨_, hall⟩).mp hs
  have hnone : xs.map Prod.snd ++ s.printing.map Prod.snd = [] := by
    rw [← hread] at hall
    exact List.append_right_eq_self.mp hall
  have hidle : s.commands.map Prod.snd ++ s.unsent = [] := by
    rw [hcmd, List.append_assoc] at hsends
    exact List.append_right_eq_self.mp hsends
  simp only [List.append_eq_nil_iff, List.map_eq_nil_iff] at hnone hidle
  exact ⟨hnone.1, hnone.2, hidle.1, hcmd, hread, hI⟩

private theorem finished_of_log {s' : Session Cmd Line S} (h : Inv sv I blocks s past current)
    (hf : s'.finished = s.finished) (hl : ∀ i < s.call, s'.entriesOf i = s.entriesOf i) :
    ∀ i ls, s'.finished[i]? = some ls → Closed sv I blocks s' i ls := by
  intro i ls hi
  rw [hf] at hi
  have he := hl i (List.getElem?_eq_some_iff.mp hi).1
  obtain ⟨hlines, hcommands, hexec⟩ := h.finished i ls hi
  constructor
  · rw [outputOf, he]; exact hlines
  · rw [commandsOf, he]; exact hcommands
  · rw [he]; exact hexec

private theorem send {c : Cmd} {cs : List Cmd} (h : Inv sv I blocks s past current) (hu : s.unsent = c :: cs) :
    Inv sv I blocks { s with unsent := cs, commands := s.commands ++ [(s.call, c)] } past current := by
  refine { h with commands := ?_, sends := ?_, finished := finished_of_log h rfl (fun _ _ => rfl) }
  · intro x hx
    rcases List.mem_append.mp hx with hx | hx
    · exact h.commands x hx
    · rw [List.mem_singleton.mp hx]
      rfl
  · have := h.sends
    rw [hu] at this
    simpa [call] using this

private theorem take {i : Nat} {c : Cmd} {cs : List (Nat × Cmd)} {ls : List Line} {t : S}
    (h : Inv sv I blocks s past current) (hp : s.printing = []) (hc : s.commands = (i, c) :: cs)
    (ha : sv.answers s.server c ls t) :
    Inv sv I blocks { s with commands := cs, server := t, printing := ls.map (i, ·), log := s.log ++ [⟨i, c, ls⟩] }
      past (current ++ [⟨i, c, ls⟩]) := by
  have hi : i = s.call := h.commands (i, c) (by simp [hc])
  obtain ⟨u, hpast, hu, hcurrent⟩ := h.exec
  refine { h with
    log := ?_, current_call := ?_, exec := ⟨u, hpast, hu, ?_⟩, commands := ?_, lines := ?_, sends := ?_, output := ?_
    finished := finished_of_log h rfl ?_ }
  · simp [h.log]
  · intro e he
    rcases List.mem_append.mp he with he | he
    · exact h.current_call e he
    · rw [List.mem_singleton.mp he]
      exact hi
  · exact hcurrent.append ⟨t, ha, rfl⟩
  · exact fun x hx => h.commands x (by rw [hc]; exact List.mem_cons_of_mem _ hx)
  · intro x hx
    rcases List.mem_append.mp hx with hx | hx
    · exact h.lines x (List.mem_append_left _ hx)
    · obtain ⟨l, -, rfl⟩ := List.mem_map.mp hx
      exact hi
  · have := h.sends
    rw [hc] at this
    simpa [call] using this
  · have := h.output
    rw [hp, List.append_nil] at this
    simp only [List.map_append, List.map_map, List.flatMap_append, List.flatMap_singleton, ← this]
    simp [Function.comp_def]
  · intro j hj
    have hne : ¬ i = j := by omega
    simp [entriesOf, hne]

private theorem print {x : Nat × Line} {xs : List (Nat × Line)} (h : Inv sv I blocks s past current)
    (hp : s.printing = x :: xs) :
    Inv sv I blocks { s with printing := xs, output := s.output ++ [x] } past current := by
  refine { h with lines := ?_, output := ?_, finished := finished_of_log h rfl (fun _ _ => rfl) }
  · have := h.lines
    rw [hp] at this
    simpa [call] using this
  · have := h.output
    rw [hp] at this
    simpa using this

private theorem read {b : Block Cmd Line} {x : Nat × Line} {xs : List (Nat × Line)} (h : Inv sv I blocks s past current)
    (hb : blocks[s.call]? = some b) (ho : s.output = x :: xs) (hs : b.stops ((s.got ++ [x]).map Prod.snd) = false) :
    Inv sv I blocks { s with output := xs, got := s.got ++ [x] } past current := by
  refine { h with lines := ?_, output := ?_, waiting := ?_, finished := finished_of_log h rfl (fun _ _ => rfl) }
  · have := h.lines
    rw [ho] at this
    simpa [call] using this
  · have := h.output
    rw [ho] at this
    simpa using this
  · intro b' hb' _
    have heq : blocks[s.call]? = some b' := hb'
    obtain rfl : b = b' := by simpa [hb] using heq
    exact hs

private theorem closed {b : Block Cmd Line} {x : Nat × Line} {xs : List (Nat × Line)} (h : Inv sv I blocks s past current)
    (hb : blocks[s.call]? = some b) (ho : s.output = x :: xs) (hcmd : current.map Answered.command = b.sends)
    (hread : (s.got ++ [x]).map Prod.snd = current.flatMap Answered.lines) :
    Closed sv I blocks s s.call (s.got ++ [x]) := by
  obtain ⟨u, hpast, hu, hcurrent⟩ := h.exec
  have hall : ∀ y ∈ s.got ++ [x], y.1 = s.call := by
    intro y hy
    apply h.lines y
    rw [ho]
    rcases List.mem_append.mp hy with hy | hy
    · exact List.mem_append_left _ (List.mem_append_left _ hy)
    · rw [List.mem_singleton.mp hy]
      simp
  constructor
  · rw [outputOf, h.entriesOf_call, ← hread, List.map_map]
    conv_lhs => rw [← List.map_id (s.got ++ [x])]
    exact List.map_congr_left (fun y hy => Prod.ext (hall y hy) rfl)
  · rw [commandsOf, h.entriesOf_call, hcmd]
    simp [sendsAt, hb]
  · rw [h.entriesOf_call]
    exact ⟨past, u, s.server, h.past_sends, hpast, hu, hcurrent⟩

private theorem finish {b : Block Cmd Line} {x : Nat × Line} {xs : List (Nat × Line)} (hI : I sv.start)
    (hf : ∀ b ∈ blocks, b.Framed sv I) (h : Inv sv I blocks s past current) (hb : blocks[s.call]? = some b)
    (ho : s.output = x :: xs) (hs : b.stops ((s.got ++ [x]).map Prod.snd) = true) :
    Inv sv I blocks
      { s with output := xs, got := [], finished := s.finished ++ [s.got ++ [x]], unsent := sendsAt blocks (s.call + 1) }
      (past ++ current) [] := by
  obtain ⟨rfl, hp, hc, hcmd, hread, hlive⟩ := h.drained (hf b (List.mem_of_getElem? hb)) hb ho hs
  obtain ⟨u, hpast, -, hcurrent⟩ := h.exec
  constructor
  · simp [h.log]
  · intro e he
    have hcall : e.call ≤ s.call := by
      rcases List.mem_append.mp he with he | he
      · exact Nat.le_of_lt (h.past_call e he)
      · exact Nat.le_of_eq (h.current_call e he)
    simpa [call] using Nat.lt_succ_of_le hcall
  · simp
  · exact ⟨s.server, hpast.append hcurrent, hlive, rfl⟩
  · simp [hc]
  · simp [hp]
  · simp [hc, call]
  · simp [hp]
  · have htake : blocks.take (s.finished.length + 1) = blocks.take s.finished.length ++ [b] := by
      rw [List.take_add_one, show blocks[s.finished.length]? = some b from hb, Option.toList_some]
    simp only [call, List.length_append, List.length_singleton, htake, List.map_append, h.past_sends, hcmd,
      List.flatMap_append, List.flatMap_singleton]
  · exact fun b' hb' hne => waits hI (hf b' (List.mem_of_getElem? hb')) hne
  · intro i ls hi
    by_cases hlt : i < s.finished.length
    · rw [List.getElem?_append_left hlt] at hi
      obtain ⟨hlines, hcommands, hexec⟩ := h.finished i ls hi
      exact ⟨hlines, hcommands, hexec⟩
    · have hle : i < s.finished.length + 1 := by simpa using (List.getElem?_eq_some_iff.mp hi).1
      obtain rfl : i = s.call := by rw [call]; omega
      rw [List.getElem?_append_right (by simp [call])] at hi
      obtain rfl : s.got ++ [x] = ls := by simpa [call] using hi
      obtain ⟨hlines, hcommands, hexec⟩ := h.closed hb ho hcmd hread
      exact ⟨hlines, hcommands, hexec⟩

/-- Every step keeps the invariant. -/
theorem step (hI : I sv.start) (hf : ∀ b ∈ blocks, b.Framed sv I) (h : Inv sv I blocks s past current) (hstep : Step sv blocks s s') :
    ∃ past' current', Inv sv I blocks s' past' current' := by
  cases hstep with
  | send hu => exact ⟨_, _, h.send hu⟩
  | take hp hc ha => exact ⟨_, _, h.take hp hc ha⟩
  | print hp => exact ⟨_, _, h.print hp⟩
  | read hu hb ho hs => exact ⟨_, _, h.read hb ho hs⟩
  | finish hu hb ho hs => exact ⟨_, _, h.finish hI hf hb ho hs⟩

/-- Every reachable state satisfies the invariant. -/
theorem of_reachable (hI : I sv.start) (hf : ∀ b ∈ blocks, b.Framed sv I) (h : Reachable sv blocks s) :
    ∃ past current, Inv sv I blocks s past current := by
  induction h with
  | refl => exact ⟨[], [], start hI hf⟩
  | tail _ hstep ih =>
    obtain ⟨past, current, h⟩ := ih
    exact h.step hI hf hstep

/-- Some process can always go on while there is a block to finish. -/
theorem progress (hf : ∀ b ∈ blocks, b.Framed sv I) (hne : ∀ b ∈ blocks, b.sends ≠ [])
    (ha : ∀ t c, I t → ∃ ls u, sv.answers t c ls u) (h : Inv sv I blocks s past current) (hs : s.call < blocks.length) :
    ∃ s', Step sv blocks s s' := by
  obtain ⟨b, hb⟩ : ∃ b, blocks[s.call]? = some b := ⟨_, List.getElem?_eq_getElem hs⟩
  have hmem := List.mem_of_getElem? hb
  obtain ⟨u, -, hu, hexec⟩ := h.exec
  have hsends := h.sends
  rw [show sendsAt blocks s.call = b.sends by simp [sendsAt, hb]] at hsends
  obtain ⟨hI, hstops⟩ := hf b hmem u current s.server hu hexec
    ⟨s.commands.map Prod.snd ++ s.unsent, by rw [← hsends, List.append_assoc]⟩
  cases hus : s.unsent with
  | cons c cs => exact ⟨_, .send hus⟩
  | nil =>
  cases hp : s.printing with
  | cons x xs => exact ⟨_, .print hp⟩
  | nil =>
  cases hc : s.commands with
  | cons x cs =>
    obtain ⟨ls, t, hls⟩ := ha s.server x.2 hI
    exact ⟨_, .take hp hc hls⟩
  | nil =>
  cases ho : s.output with
  | cons x xs =>
    cases hstop : b.stops ((s.got ++ [x]).map Prod.snd) with
    | false => exact ⟨_, .read hus hb ho hstop⟩
    | true => exact ⟨_, .finish hus hb ho hstop⟩
  | nil =>
    -- Both sides idle: the client has read everything, so its reader has stopped before.
    exfalso
    rw [hc, hus] at hsends
    have hall : current.map Answered.command = b.sends := by simpa using hsends
    have hread : s.got.map Prod.snd = current.flatMap Answered.lines := by
      have := h.output
      rw [ho, hp] at this
      simpa using this
    have hstop := (hstops _ (hread ▸ List.prefix_rfl)).mpr ⟨hall, hread⟩
    rw [h.waiting b hb (hne b hmem)] at hstop
    cases hstop

end Inv

theorem Reachable.drained (hI : I sv.start) (hf : ∀ b ∈ blocks, b.Framed sv I) (h : Reachable sv blocks s) (hstep : Step sv blocks s s')
    (hfin : s'.finished ≠ s.finished) : s'.output = [] ∧ s'.printing = [] ∧ s'.commands = [] ∧ s'.got = [] := by
  obtain ⟨past, current, hinv⟩ := Inv.of_reachable hI hf h
  cases hstep with
  | send hu => exact absurd rfl hfin
  | take hp hc ha => exact absurd rfl hfin
  | print hp => exact absurd rfl hfin
  | read hu hb ho hs => exact absurd rfl hfin
  | finish hu hb ho hs =>
    obtain ⟨hxs, hp, hc, -⟩ := hinv.drained (hf _ (List.mem_of_getElem? hb)) hb ho hs
    exact ⟨hxs, hp, hc, rfl⟩

theorem Reachable.closed (hI : I sv.start) (hf : ∀ b ∈ blocks, b.Framed sv I) (h : Reachable sv blocks s) {i : Nat}
    {ls : List (Nat × Line)} (hi : s.finished[i]? = some ls) : Closed sv I blocks s i ls := by
  obtain ⟨past, current, hinv⟩ := Inv.of_reachable hI hf h
  exact hinv.finished i ls hi

/-- Commands that are not yet answered count first, lines that are not yet read second. -/
def remaining (blocks : List (Block Cmd Line)) (s : Session Cmd Line S) : Nat × Nat :=
  (2 * ((blocks.drop (s.call + 1)).flatMap Block.sends ++ s.unsent).length + s.commands.length,
    2 * s.printing.length + s.output.length)

private theorem drop_sends (blocks : List (Block Cmd Line)) (i : Nat) :
    (blocks.drop i).flatMap Block.sends = sendsAt blocks i ++ (blocks.drop (i + 1)).flatMap Block.sends := by
  rcases Nat.lt_or_ge i blocks.length with h | h
  · rw [List.drop_eq_getElem_cons h, List.flatMap_cons, sendsAt, List.getElem?_eq_getElem h]
    rfl
  · rw [List.drop_eq_nil_of_le h, List.drop_eq_nil_of_le (Nat.le_succ_of_le h), sendsAt,
      List.getElem?_eq_none h]
    rfl

theorem Step.remaining_lt (h : Step sv blocks s s') :
    Prod.Lex (· < ·) (· < ·) (remaining blocks s') (remaining blocks s) := by
  cases h with
  | send hu =>
    apply Prod.Lex.left
    simp [call, hu]
    omega
  | take hp hc ha =>
    apply Prod.Lex.left
    simp [call, hc]
  | print hp =>
    apply Prod.Lex.right
    simp [hp]
    omega
  | read hu hb ho hs =>
    apply Prod.Lex.right
    simp [ho]
  | finish hu hb ho hs =>
    have hdrop := congrArg List.length (drop_sends blocks (s.call + 1))
    simp only [List.length_append] at hdrop
    rw [Prod.lex_iff]
    right
    simp only [remaining, call, List.length_append, hu, ho, List.length_cons, List.length_nil, Nat.zero_add] at hdrop ⊢
    omega

/-- No run goes on for ever. -/
theorem step_wellFounded : WellFounded (fun s' s : Session Cmd Line S => Step sv blocks s s') :=
  Subrelation.wf (fun h => h.remaining_lt)
    (InvImage.wf (remaining blocks) (WellFounded.prod_lex Nat.lt_wfRel.wf Nat.lt_wfRel.wf))

/-- Every run can be continued to one that has finished all blocks. -/
theorem Reachable.completes (hI : I sv.start) (hf : ∀ b ∈ blocks, b.Framed sv I) (hne : ∀ b ∈ blocks, b.sends ≠ [])
    (ha : ∀ t c, I t → ∃ ls u, sv.answers t c ls u) (h : Reachable sv blocks s) :
    ∃ t, Relation.ReflTransGen (Step sv blocks) s t ∧ blocks.length ≤ t.call := by
  induction s using step_wellFounded.induction (r := fun s' s => Step sv blocks s s') with
  | h s ih =>
  by_cases hs : s.call < blocks.length
  · obtain ⟨past, current, hinv⟩ := Inv.of_reachable hI hf h
    obtain ⟨s', hstep⟩ := hinv.progress hf hne ha hs
    obtain ⟨t, hrun, ht⟩ := ih s' hstep (h.tail hstep)
    exact ⟨t, hrun.head hstep, ht⟩
  · exact ⟨s, .refl, Nat.le_of_not_lt hs⟩

end Session

/-- A server whose answer is a function of its state and the command. -/
def Server.ofFun (start : S) (f : S → Cmd → List Line × S) : Server Cmd Line S :=
  ⟨start, fun s c ls t => f s c = (ls, t)⟩

/-- The lines and the state behind a list of commands. -/
def answerAll (f : S → Cmd → List Line × S) : S → List Cmd → List Line × S
  | s, [] => ([], s)
  | s, c :: cs => ((f s c).1 ++ (answerAll f (f s c).2 cs).1, (answerAll f (f s c).2 cs).2)

theorem answerAll_append (f : S → Cmd → List Line × S) (s : S) (cs ds : List Cmd) :
    answerAll f s (cs ++ ds) =
      ((answerAll f s cs).1 ++ (answerAll f (answerAll f s cs).2 ds).1, (answerAll f (answerAll f s cs).2 ds).2) := by
  induction cs generalizing s with
  | nil => rfl
  | cons c cs ih => simp [answerAll, ih]

theorem Server.Exec.eq_answerAll {start : S} {f : S → Cmd → List Line × S} {s t : S}
    {es : List (Answered Cmd Line)} (h : (Server.ofFun start f).Exec s es t) :
    (es.flatMap Answered.lines, t) = answerAll f s (es.map Answered.command) := by
  induction es generalizing s with
  | nil => cases h; rfl
  | cons e es ih =>
    obtain ⟨u, hu, h⟩ := h
    have he : f s e.command = (e.lines, u) := hu
    simp only [List.flatMap_cons, List.map_cons, answerAll, he, ← ih h]

/-- The lines of the `i`-th block, when the blocks are worked through one by one. -/
def answersAt (start : S) (f : S → Cmd → List Line × S) (blocks : List (Block Cmd Line)) (i : Nat) : List Line :=
  (answerAll f (answerAll f start ((blocks.take i).flatMap Block.sends)).2 (sendsAt blocks i)).1

/-- In every interleaving a finished block has read what it would read without pipes. -/
theorem Session.Reachable.sequential {start : S} {f : S → Cmd → List Line × S} {I : S → Prop} {blocks : List (Block Cmd Line)}
    {s : Session Cmd Line S} (hI : I start) (hf : ∀ b ∈ blocks, b.Framed (Server.ofFun start f) I)
    (h : Reachable (Server.ofFun start f) blocks s) {i : Nat} {ls : List (Nat × Line)}
    (hi : s.finished[i]? = some ls) : ls.map Prod.snd = answersAt start f blocks i := by
  obtain ⟨hlines, hcommands, before, u, v, hsends, hbefore, -, hexec⟩ := h.closed hI hf hi
  have hu := congrArg Prod.snd hbefore.eq_answerAll
  have hls := congrArg Prod.fst hexec.eq_answerAll
  rw [hsends] at hu
  rw [show (s.entriesOf i).map Answered.command = sendsAt blocks i from hcommands] at hls
  rw [hlines, List.map_map, answersAt, show (Server.ofFun start f).start = start from rfl] at *
  rw [← hu, ← hls]
  simp [Function.comp_def, outputOf]

end ChessAnalytics.Systems
