import Mathlib

/-! Processes that share a store and take their steps in any order; each may stop for good
between two steps. -/
namespace ChessAnalytics.Systems

/-- What one step of a process does to the store and to the process, which events it counts as,
and the process that has stopped. -/
structure Machine (σ π ε : Type) where
  step : σ → π → Option (σ × π)
  events : π → List ε
  halted : π

structure Pool (σ π : Type) where
  store : σ
  procs : List π

inductive Action (π : Type) where
  | launch (p : π)
  | advance (i : Nat)
  | fail (i : Nat)

namespace Machine
variable {σ π ε : Type} (m : Machine σ π ε)

def act (s : Pool σ π) : Action π → Option (Pool σ π)
  | .launch p => some { s with procs := s.procs ++ [p] }
  | .advance i =>
    match s.procs[i]? with
    | some p => (m.step s.store p).map fun r => ⟨r.1, s.procs.set i r.2⟩
    | none => none
  | .fail i => if i < s.procs.length then some { s with procs := s.procs.set i m.halted } else none

def eventsOf (s : Pool σ π) : Action π → List ε
  | .advance i => (s.procs[i]?.map m.events).getD []
  | _ => []

/-- A run whose actions all meet a condition on the events so far and on the state before them, with
its events. Some events may lie in the past already. -/
inductive Run (meets : List ε → Pool σ π → Action π → Prop) (past : List ε) : Pool σ π → List ε → Pool σ π → Prop where
  | refl (s : Pool σ π) : Run meets past s [] s
  | step {s s' s'' : Pool σ π} {es : List ε} {a : Action π} (run : Run meets past s es s')
      (condition : meets (past ++ es) s' a) (acts : m.act s' a = some s'') : Run meets past s (es ++ m.eventsOf s' a) s''

variable {m} {meets : List ε → Pool σ π → Action π → Prop} {past : List ε}

/-- What an action can do: a process comes, one takes a step, or one stops. -/
theorem act_cases {s s' : Pool σ π} {a : Action π} (h : m.act s a = some s') :
    (∃ p, a = .launch p ∧ s' = ⟨s.store, s.procs ++ [p]⟩) ∨
    (∃ i p r, a = .advance i ∧ s.procs[i]? = some p ∧ m.step s.store p = some r ∧ s' = ⟨r.1, s.procs.set i r.2⟩) ∨
    (∃ i, a = .fail i ∧ s' = ⟨s.store, s.procs.set i m.halted⟩) := by
  cases a with
  | launch p => exact .inl ⟨p, rfl, (Option.some_inj.mp h).symm⟩
  | advance i =>
    rw [act] at h
    split at h
    · rename_i p hp
      obtain ⟨r, hr, rfl⟩ := Option.map_eq_some_iff.mp h
      exact .inr (.inl ⟨i, p, r, rfl, hp, hr, rfl⟩)
    · cases h
  | fail i =>
    rw [act] at h
    split at h
    · exact .inr (.inr ⟨i, rfl, (Option.some_inj.mp h).symm⟩)
    · cases h

theorem Run.single {s s' : Pool σ π} {a : Action π} (condition : meets past s a) (h : m.act s a = some s') :
    Run m meets past s (m.eventsOf s a) s' :=
  (Run.refl s).step ((List.append_nil past).symm ▸ condition) h

theorem Run.append {s s' s'' : Pool σ π} {es es' : List ε} (h : Run m meets past s es s')
    (h' : Run m meets (past ++ es) s' es' s'') : Run m meets past s (es ++ es') s'' := by
  induction h' with
  | refl => rwa [List.append_nil]
  | step _ condition acts ih =>
    rw [List.append_assoc] at condition
    exact List.append_assoc _ _ _ ▸ ih.step condition acts

/-- Let the processes with these numbers step in turn, as long as the steps meet the condition. -/
def advances (m : Machine σ π ε) (meets : List ε → Pool σ π → Action π → Prop)
    [∀ es s i, Decidable (meets es s (.advance i))] : List ε → Pool σ π → List Nat → Option (List ε × Pool σ π)
  | _, s, [] => some ([], s)
  | past, s, i :: is =>
    if meets past s (.advance i) then
      match m.act s (.advance i) with
      | some s' =>
        (advances m meets (past ++ m.eventsOf s (.advance i)) s' is).map fun r => (m.eventsOf s (.advance i) ++ r.1, r.2)
      | none => none
    else none

theorem run_of_advances [∀ es s i, Decidable (meets es s (.advance i))] {s : Pool σ π} {is : List Nat}
    {r : List ε × Pool σ π} (h : advances m meets past s is = some r) : Run m meets past s r.1 r.2 := by
  induction is generalizing past s r with
  | nil =>
    obtain rfl := Option.some_inj.mp h
    exact .refl s
  | cons i is ih =>
    rw [advances] at h
    split at h
    · rename_i hmeets
      split at h
      · rename_i s' hs'
        obtain ⟨r', hr', rfl⟩ := Option.map_eq_some_iff.mp h
        exact (Run.single hmeets hs').append (ih hr')
      · cases h
    · cases h

/-- A property of the store and one of each process, about the events so far, that the actions
meeting the condition keep: a process has it when it comes and when it has stopped, and a step keeps
it for the store, for itself and for the others. -/
structure Keeps (m : Machine σ π ε) (meets : List ε → Pool σ π → Action π → Prop) (J : List ε → σ → Prop)
    (I : List ε → σ → π → Prop) : Prop where
  launch : ∀ es s p, meets es s (.launch p) → I es s.store p
  halted : ∀ (es : List ε) (store : σ), I es store m.halted
  store : ∀ {es : List ε} {s : Pool σ π} {i : Nat} {p : π} {r : σ × π}, J es s.store → (∀ q ∈ s.procs, I es s.store q) →
    s.procs[i]? = some p → meets es s (.advance i) → m.step s.store p = some r → J (es ++ m.events p) r.1
  own : ∀ {es : List ε} {s : Pool σ π} {i : Nat} {p : π} {r : σ × π}, (∀ q ∈ s.procs, I es s.store q) →
    s.procs[i]? = some p → meets es s (.advance i) → m.step s.store p = some r → I (es ++ m.events p) r.1 r.2
  others : ∀ {es : List ε} {s : Pool σ π} {i : Nat} {p : π} {r : σ × π}, (∀ q ∈ s.procs, I es s.store q) →
    s.procs[i]? = some p → meets es s (.advance i) → m.step s.store p = some r →
    ∀ q ∈ s.procs, I (es ++ m.events p) r.1 q

variable {J : List ε → σ → Prop} {I : List ε → σ → π → Prop}

/-- The property of the store and that of all processes. -/
def Invariant (J : List ε → σ → Prop) (I : List ε → σ → π → Prop) (es : List ε) (s : Pool σ π) : Prop :=
  J es s.store ∧ ∀ q ∈ s.procs, I es s.store q

theorem Keeps.act (hk : Keeps m meets J I) {es : List ε} {s s' : Pool σ π} {a : Action π} (hs : Invariant J I es s)
    (condition : meets es s a) (h : m.act s a = some s') : Invariant J I (es ++ m.eventsOf s a) s' := by
  obtain ⟨hstore, hprocs⟩ := hs
  rcases act_cases h with ⟨p, rfl, rfl⟩ | ⟨i, p, r, rfl, hp, hr, rfl⟩ | ⟨i, rfl, rfl⟩
  · change Invariant J I (es ++ []) _
    rw [List.append_nil]
    refine ⟨hstore, fun q hq => ?_⟩
    rcases List.mem_append.mp hq with hq | hq
    · exact hprocs q hq
    · exact List.mem_singleton.mp hq ▸ hk.launch es s p condition
  · have hevents : m.eventsOf s (.advance i) = m.events p := by
      rw [eventsOf, hp]
      rfl
    rw [hevents]
    refine ⟨hk.store hstore hprocs hp condition hr, fun q hq => ?_⟩
    rcases List.mem_or_eq_of_mem_set hq with hq | rfl
    · exact hk.others hprocs hp condition hr q hq
    · exact hk.own hprocs hp condition hr
  · change Invariant J I (es ++ []) _
    rw [List.append_nil]
    refine ⟨hstore, fun q hq => ?_⟩
    rcases List.mem_or_eq_of_mem_set hq with hq | rfl
    · exact hprocs q hq
    · exact hk.halted es s.store

/-- The rule: both properties hold in every state that such a run reaches. -/
theorem Keeps.run (hk : Keeps m meets J I) {s s' : Pool σ π} {es : List ε} (h : Run m meets past s es s')
    (hs : Invariant J I past s) : Invariant J I (past ++ es) s' := by
  induction h with
  | refl => rwa [List.append_nil]
  | step _ condition acts ih => exact List.append_assoc _ _ _ ▸ hk.act ih condition acts

def Alone (m : Machine σ π ε) : σ × π → σ × π → Prop := Relation.ReflTransGen fun a b => m.step a.1 a.2 = some b

theorem Alone.refl (a : σ × π) : m.Alone a a := Relation.ReflTransGen.refl

theorem Alone.single {store : σ} {p : π} {b : σ × π} (h : m.step store p = some b) : m.Alone (store, p) b :=
  Relation.ReflTransGen.single h

theorem Alone.trans {a b c : σ × π} (h : m.Alone a b) (h' : m.Alone b c) : m.Alone a c :=
  Relation.ReflTransGen.trans h h'

end Machine

end ChessAnalytics.Systems
