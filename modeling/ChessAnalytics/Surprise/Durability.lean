import ChessAnalytics.Surprise.Commands

/-! Which rows survive when analysis runs and merges interleave. -/
namespace ChessAnalytics.Surprise
open Strings Systems Pgn

/-- The names that match `surprise_sinqcup22*.parquet`. -/
def isTable (file : Str) : Bool :=
  stem.isPrefixOf file && parquetSuffix.isSuffixOf (file.drop stem.length)

/-- Some table of the directory holds the row. -/
def Held (dir : Dir) (row : Row) : Prop := ∃ file ∈ dir.keys, isTable file = true ∧ row ∈ rowsOf dir file

instance (dir : Dir) (row : Row) : Decidable (Held dir row) := by unfold Held; infer_instance

namespace Proc

/-- The parts that a merge has found, read or not, and not removed yet. -/
def found : Proc → List Str
  | .reading todo read => todo ++ read.map Prod.fst
  | .mergedJson todo _ => todo
  | .summary todo _ => todo
  | .removing todo => todo
  | .removingJson _ todo => todo
  | _ => []

/-- The parts that a merge has read and has still to remove. -/
def pending : Proc → List Str
  | .reading _ read => read.map Prod.fst
  | p => p.found

def HasMerged : Proc → Bool
  | .mergedJson .. => true
  | .summary .. => true
  | .removing _ => true
  | .removingJson .. => true
  | _ => false

/-- The rows that a merge relies on for the parts it has read: those in its memory, and once it
has written them those of the combined file. -/
def relied (dir : Dir) : Proc → Table
  | .reading _ read => concat read
  | _ => rowsOf dir combined

end Proc

/-- A run over some of these games saved the table. -/
def Saved.Within (games : List Analysed) : Saved → Prop
  | .run _ earlier => ∀ game ∈ earlier, game ∈ games
  | .merge => False

instance (games : List Analysed) : (e : Saved) → Decidable (e.Within games)
  | .run _ earlier => inferInstanceAs (Decidable (∀ game ∈ earlier, game ∈ games))
  | .merge => .isFalse id

/-- The tables that commands save in order. A run saves under a name that no file has, or that only
runs over games which it analyses again have saved under, and not while a merge is between reading
that file and removing it. A merge saves as long as there is no combined table. -/
def InOrder (es : List Saved) (s : Pool Dir Proc) : Saved → Prop
  | .run file games =>
    (file ∈ s.store → (∃ e ∈ es, e.file = file) ∧ ∀ e ∈ es, e.file = file → e.Within games) ∧
      ∀ m ∈ s.procs, file ∉ m.pending
  | .merge => combined ∉ s.store

instance (es : List Saved) (s : Pool Dir Proc) : (e : Saved) → Decidable (InOrder es s e)
  | .run file games => inferInstanceAs (Decidable ((file ∈ s.store → (∃ e ∈ es, e.file = file) ∧
      ∀ e ∈ es, e.file = file → e.Within games) ∧ ∀ m ∈ s.procs, file ∉ m.pending))
  | .merge => inferInstanceAs (Decidable (combined ∉ s.store))

section
variable {P : PyChess} (pgns : Str → List (Game P))

/-- A command as `main` starts it. -/
def IsCommand (p : Proc) : Prop :=
  p = .merging ∨ ∃ (replies : Replies) (path : Str) (skipPly startGame games : Int),
    p = analysis pgns replies path skipPly startGame games

/-- Any command may start, take its next step or stop. -/
def Allowed (_ : List Saved) (_ : Pool Dir Proc) : Action Proc → Prop
  | .launch p => IsCommand pgns p
  | _ => True

/-- The action is allowed, and if it saves a table it does so in order. -/
def Orderly (es : List Saved) (s : Pool Dir Proc) : Action Proc → Prop
  | .launch p => IsCommand pgns p
  | .advance i => ∀ p ∈ s.procs[i]?, ∀ e ∈ p.events, InOrder es s e
  | .fail _ => True

instance (es : List Saved) (s : Pool Dir Proc) (i : Nat) : Decidable (Allowed pgns es s (.advance i)) := .isTrue trivial

instance (es : List Saved) (s : Pool Dir Proc) (i : Nat) : Decidable (Orderly pgns es s (.advance i)) := by
  unfold Orderly
  infer_instance

end

theorem isTable_parquetOf (k : Str) : isTable (parquetOf (stem ++ k)) = true := by
  rw [isTable, parquetOf, List.append_assoc, Bool.and_eq_true]
  refine ⟨List.isPrefixOf_iff_prefix.mpr (List.prefix_append _ _), ?_⟩
  rw [List.drop_left]
  exact List.isSuffixOf_iff_suffix.mpr (List.suffix_append _ _)

theorem isTable_combined : isTable combined = true := by decide

theorem not_isTable_jsonOf (name : Str) : isTable (jsonOf name) = false := by
  by_contra h
  rw [Bool.not_eq_false, isTable, Bool.and_eq_true] at h
  obtain ⟨front, hfront⟩ := (List.isSuffixOf_iff_suffix.mp h.2).trans (List.drop_suffix _ _)
  exact parquetOf_ne_jsonOf front name hfront

theorem isTable_of_isPart {file : Str} (h : isPart file = true) : isTable file = true := by
  rw [isPart, Bool.and_eq_true] at h
  obtain ⟨rest, rfl⟩ := List.isPrefixOf_iff_prefix.mp h.1
  obtain ⟨k, rfl⟩ : ∃ k, rest = k ++ parquetSuffix := by
    have := h.2
    rw [List.drop_left] at this
    obtain ⟨k, hk⟩ := List.isSuffixOf_iff_suffix.mp this
    exact ⟨k, hk.symm⟩
  have hname : stem ++ "_game".toList ++ (k ++ parquetSuffix) = parquetOf (stem ++ ("_game".toList ++ k)) := by
    simp only [parquetOf, List.append_assoc]
  rw [hname]
  exact isTable_parquetOf _

theorem ne_jsonOf {file name : Str} (h : isTable file = true) : file ≠ jsonOf name := by
  rintro rfl
  rw [not_isTable_jsonOf] at h
  cases h

theorem rowsOf_insert (dir : Dir) (file : Str) (table : Table) : rowsOf (dir.insert file table) file = table := by
  rw [rowsOf, AList.lookup_insert]
  rfl

theorem rowsOf_insert_ne {dir : Dir} {file other : Str} (table : Table) (h : other ≠ file) :
    rowsOf (dir.insert file table) other = rowsOf dir other := by
  rw [rowsOf, AList.lookup_insert_ne h, rowsOf]

theorem rowsOf_erase_ne {dir : Dir} {file other : Str} (h : other ≠ file) :
    rowsOf (dir.erase file) other = rowsOf dir other := by
  rw [rowsOf, AList.lookup_erase_ne h, rowsOf]

theorem mem_rowsOf_erase {dir : Dir} {file other : Str} {row : Row} (h : row ∈ rowsOf (dir.erase file) other) :
    row ∈ rowsOf dir other := by
  by_cases hne : other = file
  · rw [hne, rowsOf, AList.lookup_erase] at h
    cases h
  · rwa [rowsOf_erase_ne hne] at h

theorem mem_of_mem_rowsOf {dir : Dir} {file : Str} {row : Row} (h : row ∈ rowsOf dir file) : file ∈ dir := by
  apply AList.lookup_isSome.mp
  rw [rowsOf] at h
  cases hlookup : dir.lookup file with
  | none =>
    rw [hlookup] at h
    cases h
  | some table => rfl

theorem held_of_mem {dir : Dir} {file : Str} {row : Row} (htable : isTable file = true) (h : row ∈ rowsOf dir file) :
    Held dir row := ⟨file, AList.mem_keys.mpr (mem_of_mem_rowsOf h), htable, h⟩

/-- What a step does to the tables: it writes one, it removes a part, or it leaves them alone. -/
theorem Proc.step_effect {dir : Dir} {p : Proc} {r : Dir × Proc} (h : p.step dir = some r) :
    (∃ e table, p.write = some (e, table) ∧ r.1 = dir.insert e.file table) ∨
    (∃ q todo, p = .removing (q :: todo) ∧ r = (dir.erase q, .removingJson q todo)) ∨
    p.write = none ∧ ∀ file, isTable file = true → r.1.lookup file = dir.lookup file := by
  cases goes h with
  | save | join => exact .inl ⟨_, _, rfl, rfl⟩
  | remove q todo => exact .inr (.inl ⟨q, todo, rfl, rfl⟩)
  | saveJson | joinJson => exact .inr (.inr ⟨rfl, fun file hfile => AList.lookup_insert_ne (ne_jsonOf hfile)⟩)
  | removeJson => exact .inr (.inr ⟨rfl, fun file hfile => AList.lookup_erase_ne (ne_jsonOf hfile)⟩)
  | glob | read | summarize => exact .inr (.inr ⟨rfl, fun _ _ => rfl⟩)
  | finish _ hwrite => exact .inr (.inr ⟨hwrite, fun _ _ => rfl⟩)

theorem pending_found {p : Proc} {q : Str} (h : q ∈ p.pending) : q ∈ p.found := by
  cases p with
  | reading todo read => exact List.mem_append_right _ h
  | _ => exact h

theorem relied_of_hasMerged {p : Proc} (h : p.HasMerged = true) (dir : Dir) : p.relied dir = rowsOf dir combined := by
  cases p with
  | reading todo read => cases h
  | _ => rfl

/-- A merge that has read parts either still has them in memory or has merged. -/
theorem relied_or_hasMerged {p : Proc} {q : Str} (h : q ∈ p.pending) :
    (∀ dir dir', p.relied dir = p.relied dir') ∨ p.HasMerged = true := by
  cases p with
  | reading todo read => exact .inl fun _ _ => rfl
  | mergedJson | summary | removing | removingJson => exact .inr rfl
  | _ => cases h

section
variable {P : PyChess} (pgns : Str → List (Game P))

/-- The row belongs to a game that was analysed for the table. -/
def FromGames (e : Saved) (row : Row) : Prop := ∃ game ∈ e.games, RowOf pgns game row

/-- What holds of the tables in every state of an orderly run: the rows under a name that something
was saved under come from a merge, or from a game that was analysed for the name. -/
def TablesInv (es : List Saved) (dir : Dir) : Prop :=
  ∀ file, isTable file = true → (∃ e ∈ es, e.file = file) →
    ∀ row ∈ rowsOf dir file, ∃ e ∈ es, e.file = file ∧ (e = .merge ∨ FromGames pgns e row)

/-- What holds of each command: a merge has found only parts, the rows of the parts it has read are
among those it relies on, its combined table is in the directory, and what a command writes is a table
with rows of its own games. -/
structure ProcInv (es : List Saved) (dir : Dir) (p : Proc) : Prop where
  parts : ∀ q ∈ p.found, isPart q = true
  covered : ∀ q ∈ p.pending, ∀ row ∈ rowsOf dir q, row ∈ p.relied dir
  merged : p.HasMerged = true → Saved.merge ∈ es ∧ combined ∈ dir
  target : ∀ e table, p.write = some (e, table) → isTable e.file = true ∧ ∀ row ∈ table, e = .merge ∨ FromGames pgns e row

variable {pgns}

namespace ProcInv
variable {es : List Saved} {dir dir' : Dir} {m p : Proc}

theorem command (h : IsCommand pgns p) (es : List Saved) (dir : Dir) : ProcInv pgns es dir p := by
  rcases h with rfl | ⟨replies, path, skipPly, startGame, games, rfl⟩
  · exact ⟨fun q hq => (List.not_mem_nil hq).elim, fun q hq => (List.not_mem_nil hq).elim,
      fun h => (Bool.false_ne_true h).elim, fun e table h => (by cases h)⟩
  · refine ⟨fun q hq => (List.not_mem_nil hq).elim, fun q hq => (List.not_mem_nil hq).elim,
      fun h => (Bool.false_ne_true h).elim, fun e table h => ?_⟩
    obtain ⟨rfl, rfl⟩ := Prod.mk.inj (Option.some_inj.mp h)
    exact ⟨isTable_parquetOf _, fun row hrow => .inr (rowOf_analysis pgns hrow)⟩

/-- A table is written over a file that the merge need not read again. -/
theorem write (h : ProcInv pgns es dir m) {e : Saved} (table : Table) (hunread : e.file ∉ m.pending)
    (hunmerged : e.file = combined → m.HasMerged = false) :
    ProcInv pgns (es ++ [e]) (dir.insert e.file table) m := by
  refine ⟨h.parts, fun q hq row hrow => ?_, fun hm => ?_, h.target⟩
  · have hother : q ≠ e.file := fun heq => hunread (heq ▸ hq)
    rw [rowsOf_insert_ne _ hother] at hrow
    have hrelied := h.covered q hq row hrow
    rcases relied_or_hasMerged hq with hsame | hmerged
    · exact hsame dir _ ▸ hrelied
    · have hother : combined ≠ e.file := fun heq => by
        rw [hunmerged heq.symm] at hmerged
        cases hmerged
      rw [relied_of_hasMerged hmerged] at hrelied ⊢
      rwa [rowsOf_insert_ne _ hother]
  · obtain ⟨hmerge, hcombined⟩ := h.merged hm
    exact ⟨List.mem_append_left _ hmerge, (AList.mem_insert _).mpr (.inr hcombined)⟩

theorem remove (h : ProcInv pgns es dir m) {file : Str} (hfile : isPart file = true) :
    ProcInv pgns es (dir.erase file) m := by
  have hother := (ne_combined hfile).symm
  refine ⟨h.parts, fun q hq row hrow => ?_, fun hm => ?_, h.target⟩
  · have hrelied := h.covered q hq row (mem_rowsOf_erase hrow)
    rcases relied_or_hasMerged hq with hsame | hmerged
    · exact hsame dir _ ▸ hrelied
    · rw [relied_of_hasMerged hmerged] at hrelied ⊢
      rwa [rowsOf_erase_ne hother]
  · obtain ⟨hmerge, hcombined⟩ := h.merged hm
    exact ⟨hmerge, AList.mem_erase.mpr ⟨hother, hcombined⟩⟩

theorem quiet (h : ProcInv pgns es dir m) (hsame : ∀ file, isTable file = true → dir'.lookup file = dir.lookup file) :
    ProcInv pgns es dir' m := by
  have hrows {file : Str} (hfile : isTable file = true) : rowsOf dir' file = rowsOf dir file := by
    rw [rowsOf, hsame file hfile, rowsOf]
  refine ⟨h.parts, fun q hq row hrow => ?_, fun hm => ?_, h.target⟩
  · rw [hrows (isTable_of_isPart (h.parts q (pending_found hq)))] at hrow
    have hrelied := h.covered q hq row hrow
    rcases relied_or_hasMerged hq with hmemory | hmerged
    · exact hmemory dir _ ▸ hrelied
    · rw [relied_of_hasMerged hmerged] at hrelied ⊢
      rwa [hrows isTable_combined]
  · obtain ⟨hmerge, hcombined⟩ := h.merged hm
    refine ⟨hmerge, AList.lookup_isSome.mp ?_⟩
    rw [hsame combined isTable_combined]
    exact AList.lookup_isSome.mpr hcombined

/-- The invariant passes to a later state of the command that has no more parts on its hands. -/
theorem later {p' : Proc} (h : ProcInv pgns es dir p) (hfound : ∀ q ∈ p'.found, q ∈ p.found)
    (hpending : ∀ q ∈ p'.pending, q ∈ p.pending) (hrelied : ∀ row ∈ p.relied dir, row ∈ p'.relied dir)
    (hmerged : p'.HasMerged = true → Saved.merge ∈ es ∧ combined ∈ dir) (hwrite : p'.write = none) :
    ProcInv pgns es dir p' := by
  refine ⟨fun q hq => h.parts q (hfound q hq), fun q hq row hrow => hrelied row (h.covered q (hpending q hq) row hrow),
    hmerged, fun e table he => ?_⟩
  rw [hwrite] at he
  cases he

/-- A command that has no part on its hands and nothing to write. -/
theorem idle (hfound : p.found = []) (hmerged : p.HasMerged = false) (hwrite : p.write = none) (es : List Saved)
    (dir : Dir) : ProcInv pgns es dir p := by
  refine ⟨fun q hq => ?_, fun q hq => ?_, fun h => ?_, fun e table he => ?_⟩
  · rw [hfound] at hq
    cases hq
  · have := pending_found hq
    rw [hfound] at this
    cases this
  · rw [hmerged] at h
    cases h
  · rw [hwrite] at he
    cases he

theorem globbed {q : Str} {qs : List Str} (h : Surprise.parts dir = q :: qs) (es : List Saved) :
    ProcInv pgns es dir (.reading (q :: qs) []) := by
  refine ⟨fun q hq => ?_, fun q hq => (List.not_mem_nil hq).elim, fun h => (Bool.false_ne_true h).elim,
    fun e table he => (by cases he)⟩
  rw [Proc.found, List.map_nil, List.append_nil, ← h] at hq
  exact (mem_parts.mp hq).2

/-- Reading a part puts its rows among those that the merge relies on. -/
theorem readOne {q : Str} {qs : List Str} {read : List (Str × Table)} {table : Table}
    (h : ProcInv pgns es dir (.reading (q :: qs) read)) (htable : dir.lookup q = some table) :
    ProcInv pgns es dir (.reading qs (read ++ [(q, table)])) := by
  refine ⟨fun p hp => h.parts p ?_, fun p hp row hrow => ?_, fun h => (Bool.false_ne_true h).elim, fun e rows he => ?_⟩
  · simp only [Proc.found, List.map_append, List.map_cons, List.map_nil, List.mem_append, List.mem_cons] at hp ⊢
    tauto
  · have hconcat : concat (read ++ [(q, table)]) = concat read ++ table := by simp [concat]
    rw [Proc.relied, hconcat]
    rw [Proc.pending, List.map_append, List.map_singleton, List.mem_append, List.mem_singleton] at hp
    rcases hp with hp | rfl
    · exact List.mem_append_left _ (h.covered p hp row hrow)
    · rw [rowsOf, htable] at hrow
      exact List.mem_append_right _ hrow
  · cases qs with
    | nil =>
      obtain ⟨rfl, rfl⟩ := Prod.mk.inj (Option.some_inj.mp he)
      exact ⟨isTable_combined, fun row _ => .inl rfl⟩
    | cons q' qs => cases he

/-- The command that has taken the step has the invariant in its new state, if it had it in the
old one behind the step. -/
theorem advance {r : Dir × Proc} (h : p.step dir = some r) (hp : ProcInv pgns (es ++ p.events) r.1 p) :
    ProcInv pgns (es ++ p.events) r.1 r.2 := by
  cases Proc.goes h with
  | save | saveJson | finish => exact idle rfl rfl rfl _ _
  | glob hparts => exact globbed hparts _
  | read qs read htable => exact hp.readOne htable
  | join read =>
    refine hp.later (fun q hq => hq) (fun q hq => hq) (fun row hrow => ?_) (fun _ => ⟨?_, ?_⟩) rfl
    · rw [relied_of_hasMerged rfl, rowsOf_insert]
      exact hrow
    · exact List.mem_append_right _ List.mem_cons_self
    · exact (AList.mem_insert _).mpr (.inl rfl)
  | joinJson | summarize | removeJson =>
    exact hp.later (fun _ hq => hq) (fun _ hq => hq) (fun _ hrow => hrow) (fun _ => hp.merged rfl) rfl
  | remove q qs =>
    exact hp.later (fun _ hq => List.mem_cons_of_mem _ hq) (fun _ hq => List.mem_cons_of_mem _ hq)
      (fun _ hrow => hrow) (fun _ => hp.merged rfl) rfl

end ProcInv

namespace InOrder
variable {es : List Saved} {s : Pool Dir Proc} {e : Saved} {m : Proc}

theorem unread (h : InOrder es s e) (hm : m ∈ s.procs) (hinv : ProcInv pgns es s.store m) : e.file ∉ m.pending := by
  cases e with
  | run file games => exact h.2 m hm
  | merge => exact fun hq => ne_combined (hinv.parts _ (pending_found hq)) rfl

/-- The combined table is not written while a merge relies on it. -/
theorem unmerged (h : InOrder es s e) (hinv : ProcInv pgns es s.store m) (hfile : e.file = combined) :
    m.HasMerged = false := by
  by_contra hm
  obtain ⟨hmerge, hcombined⟩ := hinv.merged (Bool.not_eq_false _ ▸ hm)
  cases e with
  | run file games =>
    have hname : file = combined := hfile
    exact (h.1 (hname ▸ hcombined)).2 .merge hmerge hname.symm
  | merge => exact h hcombined

/-- The rows of the file that is written are of games which are analysed again. -/
theorem again (h : InOrder es s e) (hinv : TablesInv pgns es s.store) (htable : isTable e.file = true) {row : Row}
    (hrow : row ∈ rowsOf s.store e.file) : FromGames pgns e row := by
  cases e with
  | run file games =>
    obtain ⟨hsaved, hwithin⟩ := h.1 (mem_of_mem_rowsOf hrow)
    obtain ⟨e, he, hfile, hsource⟩ := hinv file htable hsaved row hrow
    have hgames := hwithin e he hfile
    cases e with
    | merge => exact hgames.elim
    | run file' earlier =>
      obtain ⟨game, hgame, hof⟩ := hsource.resolve_left Saved.noConfusion
      exact ⟨game, hgames game hgame, hof⟩
  | merge => exact absurd (mem_of_mem_rowsOf hrow) h

end InOrder

theorem events_of_write {p : Proc} {e : Saved} {table : Table} (h : p.write = some (e, table)) : p.events = [e] := by
  rw [Proc.events, h]
  rfl

theorem events_of_quiet {p : Proc} (h : p.write = none) : p.events = [] := by
  rw [Proc.events, h]
  rfl

section
variable {es : List Saved} {s : Pool Dir Proc} {i : Nat} {p : Proc} {r : Dir × Proc}

private theorem inOrder_of_write (hp : s.procs[i]? = some p) (orderly : Orderly pgns es s (.advance i)) {e : Saved}
    {table : Table} (hw : p.write = some (e, table)) : InOrder es s e := by
  refine orderly p hp e ?_
  rw [events_of_write hw]
  exact List.mem_cons_self

/-- An orderly step of one command keeps the invariant of all. -/
theorem step_inv (hs : ∀ q ∈ s.procs, ProcInv pgns es s.store q) (hp : s.procs[i]? = some p)
    (orderly : Orderly pgns es s (.advance i)) (h : p.step s.store = some r) :
    ∀ q ∈ s.procs, ProcInv pgns (es ++ p.events) r.1 q := by
  intro q hq
  rcases Proc.step_effect h with ⟨e, table, hw, hdir⟩ | ⟨file, todo, rfl, rfl⟩ | ⟨hw, hsame⟩
  · have hwrite := inOrder_of_write hp orderly hw
    rw [hdir, events_of_write hw]
    exact (hs q hq).write table (hwrite.unread hq (hs q hq)) (hwrite.unmerged (hs q hq))
  · rw [events_of_quiet rfl, List.append_nil]
    exact (hs q hq).remove ((hs _ (List.mem_of_getElem? hp)).parts file List.mem_cons_self)
  · rw [events_of_quiet hw, List.append_nil]
    exact (hs q hq).quiet hsame

theorem step_tables (ht : TablesInv pgns es s.store) (hs : ∀ q ∈ s.procs, ProcInv pgns es s.store q)
    (hp : s.procs[i]? = some p) (h : p.step s.store = some r) : TablesInv pgns (es ++ p.events) r.1 := by
  rcases Proc.step_effect h with ⟨e, table, hw, hdir⟩ | ⟨file, todo, rfl, rfl⟩ | ⟨hw, hsame⟩
  · obtain ⟨-, hrows⟩ := (hs p (List.mem_of_getElem? hp)).target e table hw
    rw [hdir, events_of_write hw]
    intro file htable hsaved row hrow
    by_cases hfile : e.file = file
    · subst hfile
      rw [rowsOf_insert] at hrow
      exact ⟨e, List.mem_append_right _ List.mem_cons_self, rfl, hrows row hrow⟩
    · obtain ⟨e', he', hfile'⟩ := hsaved
      have hold : e' ∈ es := (List.mem_append.mp he').resolve_right fun h => hfile (List.mem_singleton.mp h ▸ hfile')
      rw [rowsOf_insert_ne _ (Ne.symm hfile)] at hrow
      obtain ⟨source, hsource, hof⟩ := ht file htable ⟨e', hold, hfile'⟩ row hrow
      exact ⟨source, List.mem_append_left _ hsource, hof⟩
  · rw [events_of_quiet rfl, List.append_nil]
    exact fun file htable hsaved row hrow => ht file htable hsaved row (mem_rowsOf_erase hrow)
  · rw [events_of_quiet hw, List.append_nil]
    intro file htable hsaved row hrow
    rw [rowsOf, hsame file htable] at hrow
    exact ht file htable hsaved row hrow

theorem orderly_keeps (pgns : Str → List (Game P)) :
    Machine.Keeps commands (Orderly pgns) (TablesInv pgns) (ProcInv pgns) where
  launch := fun es s _ h => .command h es s.store
  halted := fun es store => .idle rfl rfl rfl es store
  store := fun ht hs hp _ h => step_tables ht hs hp h
  own := fun hs hp orderly h => ProcInv.advance h (step_inv hs hp orderly h _ (List.mem_of_getElem? hp))
  others := step_inv

/-- An orderly step loses a row only when it has analysed the game anew. -/
theorem step_held (ht : TablesInv pgns es s.store) (hs : ∀ q ∈ s.procs, ProcInv pgns es s.store q)
    (hp : s.procs[i]? = some p) (orderly : Orderly pgns es s (.advance i)) (h : p.step s.store = some r) {row : Row}
    (held : Held s.store row) : Held r.1 row ∨ ∃ e ∈ p.events, FromGames pgns e row := by
  obtain ⟨file, -, htable, hrow⟩ := held
  have hinv := hs p (List.mem_of_getElem? hp)
  rcases Proc.step_effect h with ⟨e, table, hw, hdir⟩ | ⟨q, todo, rfl, rfl⟩ | ⟨-, hsame⟩
  · rw [hdir, events_of_write hw]
    by_cases hfile : file = e.file
    · subst hfile
      exact .inr ⟨e, List.mem_cons_self, (inOrder_of_write hp orderly hw).again ht htable hrow⟩
    · exact .inl (held_of_mem htable (by rwa [rowsOf_insert_ne _ hfile]))
  · have hpart := hinv.parts q List.mem_cons_self
    by_cases hfile : file = q
    · -- The removed part's rows are in the combined file.
      have hcovered := hinv.covered q List.mem_cons_self row (hfile ▸ hrow)
      exact .inl (held_of_mem isTable_combined (by rwa [rowsOf_erase_ne (ne_combined hpart).symm]))
    · exact .inl (held_of_mem htable (by rwa [rowsOf_erase_ne hfile]))
  · exact .inl (held_of_mem htable (by rwa [rowsOf, hsame file htable]))

/-- From a state in which the invariants hold, an orderly run loses no row of a game that it has
not analysed anew. -/
theorem run_held {past : List Saved} {s' : Pool Dir Proc} (run : commands.Run (Orderly pgns) past s es s')
    (hs : Machine.Invariant (TablesInv pgns) (ProcInv pgns) past s) {row : Row} (held : Held s.store row) :
    Held s'.store row ∨ ∃ e ∈ es, FromGames pgns e row := by
  induction run with
  | refl => exact .inl held
  | step run orderly acts ih =>
    rename_i s' s'' es a
    rcases ih with held | ⟨e, he, hgame⟩
    · obtain ⟨ht, hprocs⟩ := (orderly_keeps pgns).run run hs
      rcases Machine.act_cases acts with ⟨q, rfl, rfl⟩ | ⟨j, q, r, rfl, hq, hr, rfl⟩ | ⟨j, rfl, rfl⟩
      · exact .inl held
      · rcases step_held ht hprocs hq orderly hr held with held | ⟨e, he, hgame⟩
        · exact .inl held
        · refine .inr ⟨e, List.mem_append_right _ ?_, hgame⟩
          rw [Machine.eventsOf, hq]
          exact he
      · exact .inl held
    · exact .inr ⟨e, List.mem_append_left _ he, hgame⟩

end

/-- Take any directory in which commands start, and a run whose tables are all saved in order. Each row
that a table holds at some point of the run is held at every later point, unless the game that it
belongs to has been analysed anew between the two. -/
theorem rows_kept (pgns : Str → List (Game P)) {dir : Dir} {started : List Proc} (hstarted : ∀ p ∈ started, IsCommand pgns p)
    {s s' : Pool Dir Proc} {es es' : List Saved} (reached : commands.Run (Orderly pgns) [] ⟨dir, started⟩ es s)
    (run : commands.Run (Orderly pgns) es s es' s') {row : Row} (held : Held s.store row) :
    Held s'.store row ∨ ∃ e ∈ es', ∃ game ∈ e.games, RowOf pgns game row := by
  have hstart : Machine.Invariant (TablesInv pgns) (ProcInv pgns) [] ⟨dir, started⟩ :=
    ⟨fun _ _ ⟨_, he, _⟩ => (List.not_mem_nil he).elim, fun p hp => .command (hstarted p hp) [] dir⟩
  exact run_held run ((orderly_keeps pgns).run reached hstart) held

end

def kingPawnGames (_ : Str) : List (Game kingPawnChess) := [kingPawnGame, kingPawnGame, kingPawnGame]

def kingPawnRun (startGame games : Int) : Proc :=
  analysis kingPawnGames kingPawnReplies "sinqcup22.pgn".toList 0 startGame games

theorem kingPawnRun_isCommand (startGame games : Int) : IsCommand kingPawnGames (kingPawnRun startGame games) :=
  .inr ⟨_, _, _, _, _, rfl⟩

def kingPawnRow : Row := positionRow kingPawnReplies (gameIdOf 0 kingPawnGame) 0 (P := kingPawnChess) false ()

/-- One run for each of the three games, the first of them twice, and then a merge: the row of the
first game is kept. -/
theorem three_runs_kept :
    ∃ r r', commands.advances (Orderly kingPawnGames) []
        ⟨∅, [kingPawnRun 0 1, kingPawnRun 1 1, kingPawnRun 2 1, kingPawnRun 0 1, .merging]⟩ [0, 0, 1, 1, 2, 2, 3, 3] = some r ∧
      commands.advances (Orderly kingPawnGames) r.1 r.2 (List.replicate 14 4) = some r' ∧
      (Held r'.2.store kingPawnRow ∨ ∃ e ∈ r'.1, ∃ game ∈ e.games, RowOf kingPawnGames game kingPawnRow) := by
  let pool : Pool Dir Proc := ⟨∅, [kingPawnRun 0 1, kingPawnRun 1 1, kingPawnRun 2 1, kingPawnRun 0 1, .merging]⟩
  have hcommands : ∀ p ∈ pool.procs, IsCommand kingPawnGames p := by
    simp only [pool, List.forall_mem_cons]
    exact ⟨kingPawnRun_isCommand 0 1, kingPawnRun_isCommand 1 1, kingPawnRun_isCommand 2 1, kingPawnRun_isCommand 0 1,
      .inl rfl, fun _ h => (List.not_mem_nil h).elim⟩
  have hruns : (commands.advances (Orderly kingPawnGames) [] pool [0, 0, 1, 1, 2, 2, 3, 3]).any (fun r =>
      Held r.2.store kingPawnRow ∧
        (commands.advances (Orderly kingPawnGames) r.1 r.2 (List.replicate 14 4)).isSome = true) = true := by
    decide +kernel
  obtain ⟨r, hr, hrun⟩ := (Option.any_eq_true _ _).mp hruns
  obtain ⟨held, hmerge⟩ := of_decide_eq_true hrun
  obtain ⟨r', hr'⟩ := Option.isSome_iff_exists.mp hmerge
  exact ⟨r, r', hr, hr', rows_kept kingPawnGames hcommands (Machine.run_of_advances hr) (Machine.run_of_advances hr') held⟩

/-- A run over two games saves them under the name of the combined table; the merge behind a run
over the third game overwrites it. -/
theorem merge_loses_rows :
    ¬ ∀ (P : PyChess) (pgns : Str → List (Game P)) (dir : Dir) (started : List Proc), (∀ p ∈ started, IsCommand pgns p) →
      ∀ (s s' : Pool Dir Proc) (es es' : List Saved), commands.Run (Allowed pgns) [] ⟨dir, started⟩ es s →
        commands.Run (Allowed pgns) es s es' s' →
        ∀ row, Held s.store row → Held s'.store row ∨ ∃ e ∈ es', ∃ game ∈ e.games, RowOf pgns game row := by
  intro hall
  let pool : Pool Dir Proc := ⟨∅, [kingPawnRun 0 2, kingPawnRun 2 1, .merging]⟩
  have hcommands : ∀ p ∈ pool.procs, IsCommand kingPawnGames p := by
    simp only [pool, List.forall_mem_cons]
    exact ⟨kingPawnRun_isCommand 0 2, kingPawnRun_isCommand 2 1, .inl rfl, fun _ h => (List.not_mem_nil h).elim⟩
  have hruns : (commands.advances (Allowed kingPawnGames) [] pool [0, 0, 1, 1]).any (fun r =>
      Held r.2.store kingPawnRow ∧
        (commands.advances (Allowed kingPawnGames) r.1 r.2 (List.replicate 8 2)).any (fun r' =>
          ¬ Held r'.2.store kingPawnRow ∧ ∀ e ∈ r'.1, e.games = []) = true) = true := by
    decide +kernel
  obtain ⟨r, hr, hrun⟩ := (Option.any_eq_true _ _).mp hruns
  obtain ⟨held, hmerge⟩ := of_decide_eq_true hrun
  obtain ⟨r', hr', hafter⟩ := (Option.any_eq_true _ _).mp hmerge
  obtain ⟨hlost, hnone⟩ := of_decide_eq_true hafter
  rcases hall kingPawnChess kingPawnGames ∅ pool.procs hcommands r.2 r'.2 r.1 r'.1 (Machine.run_of_advances hr)
    (Machine.run_of_advances hr') kingPawnRow held with hkept | ⟨e, he, game, hgame, -⟩
  · exact hlost hkept
  · rw [hnone e he] at hgame
    cases hgame

end ChessAnalytics.Surprise
