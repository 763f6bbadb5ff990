import BlueNexus.Proofs.MachineFrame

/-!
# Runs side by side

Two runs may have different tasks left and still make the same calls and go through the same states.
It is enough to look at one step: the second run makes the same step as the first, or it makes it
after one that changes its tasks alone (`SideBySide`). Then whatever one of the runs comes to, the
other comes to as well (`Beside.reaches`, `Beside.reaches_back`), and both end alike
(`Beside.ends`, `Beside.ends_back`).
-/

namespace BlueNexus

namespace Session

variable {σ : Type}

/-- The sessions differ in their tasks at most. -/
structure Alike (s t : Session σ) : Prop where
  state : t.machine.state = s.machine.state
  host : t.host = s.host
  calls : t.calls = s.calls

theorem Alike.refl (s : Session σ) : s.Alike s := ⟨rfl, rfl, rfl⟩

variable [Host σ] {limit : Nat} {R : Session σ → Session σ → Prop} {s s' t t' y z : Session σ}
  {fault : Option Fault}

theorem Next.unique (h : Next limit s t) (h' : Next limit s t') : t = t' :=
  Progress.ongoing.inj (h.symm.trans h')

theorem Next.not_ended (h : Next limit s s') : s.step limit ≠ .ended z fault := by
  intro hz
  cases h.symm.trans hz

theorem next_or_ended (limit : Nat) (s : Session σ) :
    (∃ s', Next limit s s') ∨ ∃ fault, s.step limit = .ended s fault := by
  cases hs : s.step limit with
  | ongoing s' => exact .inl ⟨s', hs⟩
  | ended z fault =>
    have hz := eq_of_step_ended hs
    exact .inr ⟨fault, hz ▸ rfl⟩

/-- The first step of both sessions is the same, and the sessions after it are related again. -/
structure InStep (limit : Nat) (R : Session σ → Session σ → Prop) (s t : Session σ) : Prop where
  alike : s.Alike t
  next : ∀ s', Next limit s s' → ∃ t', Next limit t t' ∧ R s' t'
  ended : ∀ fault, s.step limit = .ended s fault → t.step limit = .ended t fault

/-- The sessions are in step, or will be after one step of the second. -/
inductive Beside (limit : Nat) (R : Session σ → Session σ → Prop) (s t : Session σ) : Prop
  | inStep (h : InStep limit R s t)
  | behind {u} (ha : s.Alike t) (hn : Next limit t u) (h : InStep limit R s u)

def SideBySide (limit : Nat) (R : Session σ → Session σ → Prop) : Prop :=
  ∀ ⦃s t⦄, R s t → Beside limit R s t

namespace InStep

theorem refl (hR : ∀ s, R s s) (s : Session σ) : InStep limit R s s :=
  ⟨.refl s, fun s' hn => ⟨s', hn, hR s'⟩, fun _ hz => hz⟩

theorem of_moves {front behind front' behind' : List Task} {m : Move}
    (hs : (s.machine.before front).step limit = m.before front')
    (ht : (s.machine.before behind).step limit = m.before behind')
    (hR : ∀ s' : Session σ, R (s'.mapMachine (.before front')) (s'.mapMachine (.before behind'))) :
    InStep limit R (s.mapMachine (.before front)) (s.mapMachine (.before behind)) := by
  refine ⟨⟨rfl, rfl, rfl⟩, fun s' hn => ?_, fun fault hz => ?_⟩
  · change (s.mapMachine (.before front)).move ((s.machine.before front).step limit) = _ at hn
    rw [hs] at hn
    obtain ⟨u, hu, rfl⟩ := ongoing_map_iff.1 hn
    refine ⟨u.mapMachine (.before behind'), ?_, hR u⟩
    have hnext : (s.mapMachine (.before behind)).move (m.before behind') =
        .ongoing (u.mapMachine (.before behind')) := ongoing_map_iff.2 ⟨u, hu, rfl⟩
    rwa [← ht] at hnext
  · have hm : ∀ tasks, m.before tasks = fault.elim .finished (.failed · s.machine.state) ↔
        m = fault.elim .finished (.failed · s.machine.state) := by
      intro tasks
      cases m <;> cases fault <;> simp [Move.before, Move.map]
    rw [step_ended_iff] at hz ⊢
    exact ht.trans ((hm behind').2 ((hm front').1 (hs.symm.trans hz)))

end InStep

namespace Beside

theorem alike (h : Beside limit R s t) : s.Alike t := by
  cases h with
  | inStep h => exact h.alike
  | behind ha => exact ha

theorem reaches (hR : SideBySide limit R) (h : Beside limit R s t) (hy : s.Reaches limit y) :
    ∃ z, t.Reaches limit z ∧ Beside limit R y z := by
  induction hy with
  | refl => exact ⟨t, .refl, h⟩
  | tail _ hn ih =>
    obtain ⟨z, hz, hb⟩ := ih
    cases hb with
    | inStep hb =>
      obtain ⟨z', hn', hrel⟩ := hb.next _ hn
      exact ⟨z', hz.tail hn', hR hrel⟩
    | behind _ hlag hb =>
      obtain ⟨z', hn', hrel⟩ := hb.next _ hn
      exact ⟨z', (hz.tail hlag).tail hn', hR hrel⟩

theorem reaches_back (hR : SideBySide limit R) (h : Beside limit R s t) (hz : t.Reaches limit z) :
    ∃ y, s.Reaches limit y ∧ Beside limit R y z := by
  induction hz with
  | refl => exact ⟨s, .refl, h⟩
  | tail _ hn ih =>
    obtain ⟨y, hy, hb⟩ := ih
    cases hb with
    | inStep hb =>
      rcases next_or_ended limit y with ⟨y', hnext⟩ | ⟨fault, hend⟩
      · obtain ⟨z', hn', hrel⟩ := hb.next _ hnext
        exact ⟨y', hy.tail hnext, hn.unique hn' ▸ hR hrel⟩
      · exact absurd (hb.ended _ hend) hn.not_ended
    | behind _ hlag hb => exact ⟨y, hy, hlag.unique hn ▸ .inStep hb⟩

theorem ends (hR : SideBySide limit R) (h : Beside limit R s t) (hy : s.Ends limit y fault) :
    ∃ z, t.Ends limit z fault ∧ y.Alike z := by
  obtain ⟨z, hz, hb⟩ := h.reaches hR hy.1
  cases hb with
  | inStep hb => exact ⟨z, ⟨hz, hb.ended _ hy.2⟩, hb.alike⟩
  | behind _ hlag hb => exact ⟨_, ⟨hz.tail hlag, hb.ended _ hy.2⟩, hb.alike⟩

theorem ends_back (hR : SideBySide limit R) (h : Beside limit R s t) (hz : t.Ends limit z fault) :
    ∃ y, s.Ends limit y fault ∧ y.Alike z := by
  obtain ⟨y, hy, hb⟩ := h.reaches_back hR hz.1
  cases hb with
  | inStep hb =>
    rcases next_or_ended limit y with ⟨y', hnext⟩ | ⟨fault', hend⟩
    · obtain ⟨z', hn', -⟩ := hb.next _ hnext
      exact absurd hz.2 hn'.not_ended
    · cases hz.2.symm.trans (hb.ended _ hend)
      exact ⟨y, ⟨hy, hend⟩, hb.alike⟩
  | behind _ hlag => exact absurd hz.2 hlag.not_ended

end Beside

/-- The sessions are the same, or have `P`-related tasks behind the same tasks. -/
inductive Behind (P : List Task → List Task → Prop) : Session σ → Session σ → Prop
  | same (s : Session σ) : Behind P s s
  | over (s : Session σ) {front behind} (h : P front behind) :
      Behind P (s.mapMachine (.before front)) (s.mapMachine (.before behind))

theorem sideBySide_behind {P : List Task → List Task → Prop}
    (hP : ∀ front behind, P front behind → ∀ (state : State) (host : σ) (calls : List Call),
      state.halted = false →
        Beside limit (Behind P) ⟨⟨front, state⟩, host, calls⟩ ⟨⟨behind, state⟩, host, calls⟩) :
    SideBySide limit (@Behind σ P) := by
  rintro s t (s | @⟨s, front, behind, h⟩)
  · exact .inStep (.refl .same s)
  by_cases hh : s.machine.state.halted = true
  · have hover : ∀ tasks, (s.machine.before tasks).step limit = .finished :=
      fun _ => Machine.step_of_halted hh
    exact .inStep (.of_moves (m := .finished) (hover front) (hover behind) fun s' => .over s' h)
  by_cases hne : s.machine.tasks = []
  · obtain ⟨⟨tasks, state⟩, host, calls⟩ := s
    dsimp only at hne
    subst hne
    exact hP front behind h state host calls (Bool.eq_false_iff.2 hh)
  · exact .inStep (.of_moves (Machine.step_before hne front) (Machine.step_before hne behind)
      fun s' => .over s' h)

end Session

end BlueNexus
