import BlueNexus.Proofs.ExecutionRuns
import BlueNexus.Proofs.ShiftedRuns

/-!
# Fragments elsewhere in a source

A fragment that is moved on in its source reads and executes as before: its tokens, the fragments
within them and its faults are moved on with it, and nothing else changes
(`moved_fragment_executes_alike`). The machine takes no notice of a place except to name it in a
fault, so a run of moved code comes to just what the run of the code itself comes to, moved on
(`reaches_relocate_iff`, `ends_relocate_iff`).
-/

namespace BlueNexus

variable {σ : Type} [Host σ] {limit : Nat}

namespace Session

variable {s z : Session σ} {r : Option Fault} (d : Nat)

private theorem next_relocate_iff : Next limit (s.mapMachine (.relocate d 0)) z ↔
    ∃ t, Next limit s t ∧ z = t.mapMachine (.relocate d 0) := by
  have hstep : (s.mapMachine (.relocate d 0)).step limit = (s.mapMachine (.relocate d 0)).move
      ((s.machine.step limit).map (.relocate d 0) (Fault.shift d)) :=
    congrArg (move _) (Machine.step_relocate d 0 (Nat.le_refl limit) fun _ _ _ _ => rfl)
  rw [Next, hstep]
  exact ongoing_map_iff

/-- A run of moved code is the run of the code, moved on. -/
theorem reaches_relocate_iff : (s.mapMachine (.relocate d 0)).Reaches limit z ↔
    ∃ t, s.Reaches limit t ∧ z = t.mapMachine (.relocate d 0) := by
  constructor
  · intro h
    induction h with
    | refl => exact ⟨s, .refl, rfl⟩
    | tail _ hn ih =>
      obtain ⟨t, ht, rfl⟩ := ih
      obtain ⟨u, hu, rfl⟩ := (next_relocate_iff d).1 hn
      exact ⟨u, ht.tail hu, rfl⟩
  · rintro ⟨t, ht, rfl⟩
    exact ht.relocate d 0 (Nat.le_refl limit)

theorem ended_relocate_iff :
    (s.mapMachine (.relocate d 0)).step limit = .ended (s.mapMachine (.relocate d 0)) r ↔
      ∃ r₀, s.step limit = .ended s r₀ ∧ r = r₀.map (Fault.shift d) := by
  have hstep : (s.mapMachine (.relocate d 0)).machine.step limit =
      (s.machine.step limit).map (.relocate d 0) (Fault.shift d) :=
    Machine.step_relocate d 0 (Nat.le_refl limit) fun _ _ _ _ => rfl
  simp only [step_ended_iff, hstep]
  constructor
  · intro h
    cases hm : s.machine.step limit with
    | finished =>
      rw [hm] at h
      cases r with
      | none => exact ⟨none, rfl, rfl⟩
      | some e => cases h
    | failed e₀ state =>
      rw [hm] at h
      cases r with
      | none => cases h
      | some e =>
        cases h
        exact ⟨some e₀, rfl, rfl⟩
    | silent m | tell n m | ask resume =>
      rw [hm] at h
      cases r <;> cases h
  · rintro ⟨r₀, h, rfl⟩
    rw [h]
    cases r₀ <;> rfl

/-- A run of moved code ends where the run of the code ends, and a fault is moved on. -/
theorem ends_relocate_iff : (s.mapMachine (.relocate d 0)).Ends limit z r ↔
    ∃ t r₀, s.Ends limit t r₀ ∧ z = t.mapMachine (.relocate d 0) ∧
      r = r₀.map (Fault.shift d) := by
  constructor
  · rintro ⟨hr, hz⟩
    obtain ⟨t, ht, rfl⟩ := (reaches_relocate_iff d).1 hr
    obtain ⟨r₀, hr₀, rfl⟩ := (ended_relocate_iff d).1 hz
    exact ⟨t, r₀, ⟨ht, hr₀⟩, rfl, rfl⟩
  · rintro ⟨t, r₀, ⟨ht, hr₀⟩, rfl, rfl⟩
    exact ⟨(reaches_relocate_iff d).2 ⟨t, ht, rfl⟩, (ended_relocate_iff d).2 ⟨r₀, hr₀, rfl⟩⟩

end Session

variable {c c' : Context σ} {r : Option Fault} {ts : List Token} {f : Fragment} (d : Nat)

theorem Fragment.tokens_shift_eq (limit : Nat) (f : Fragment) :
    (f.shift d).tokens limit = shiftResult d (List.map (Token.shift d)) (f.tokens limit) :=
  tokens_shift d (Nat.le_refl limit) fun _ _ _ => rfl

omit [Host σ] in
theorem session_shift_eq : c.session [.code c.depth (ts.map (Token.shift d))] =
    (c.session [.code c.depth ts]).mapMachine (.relocate d 0) := rfl

/-- Moved code makes of a context what the code makes of it, with its fault moved on. -/
theorem executes_shift_iff : Executes limit (.code (ts.map (Token.shift d))) c c' r ↔
    ∃ r₀, Executes limit (.code ts) c c' r₀ ∧ r = r₀.map (Fault.shift d) := by
  simp only [executes_iff_ends, session_shift_eq, Session.ends_relocate_iff]
  constructor
  · rintro ⟨hd, tasks, t, r₀, ht, hz, rfl⟩
    obtain ⟨⟨inner, state⟩, host, calls⟩ := t
    cases hz
    exact ⟨r₀, ⟨hd, inner, ht⟩, rfl⟩
  · rintro ⟨r₀, ⟨hd, tasks, ht⟩, rfl⟩
    exact ⟨hd, _, _, r₀, ht, rfl, rfl⟩

private theorem comesTo_shift_iff : c.ComesTo limit (ts.map (Token.shift d)) c' ↔
    c.ComesTo limit ts c' := by
  simp only [Context.ComesTo, session_shift_eq, Session.reaches_relocate_iff]
  constructor
  · rintro ⟨tasks, t, ht, hz⟩
    obtain ⟨⟨inner, state⟩, host, calls⟩ := t
    cases hz
    exact ⟨inner, ht⟩
  · rintro ⟨tasks, ht⟩
    exact ⟨_, _, ht, rfl⟩

theorem executes_unreadable_iff {e : Fault} (h : f.tokens limit = .error e) :
    Executes limit (.fragment f) c c' r ↔ c' = c ∧ r = some e := by
  constructor
  · intro hs
    cases hs with
    | unreadable h' =>
      cases h.symm.trans h'
      exact ⟨rfl, rfl⟩
    | tooDeep h' | entered h' => cases h.symm.trans h'
  · rintro ⟨rfl, rfl⟩
    exact .unreadable h

theorem executes_readable_iff (h : f.tokens limit = .ok ts) :
    Executes limit (.fragment f) c c' r ↔
      limit ≤ c.depth ∧ c' = c ∧ r = some (.nestingTooDeep f.offset limit) ∨
      c.depth < limit ∧ ∃ c₁, Executes limit (.code ts) c.deeper c₁ r ∧ c' = c₁.shallower := by
  constructor
  · intro hs
    cases hs with
    | unreadable h' => cases h.symm.trans h'
    | tooDeep h' hd => exact .inl ⟨hd, rfl, rfl⟩
    | entered h' hd hs =>
      cases h.symm.trans h'
      exact .inr ⟨hd, _, hs, rfl⟩
  · rintro (⟨hd, rfl, rfl⟩ | ⟨hd, c₁, hs, rfl⟩)
    · exact .tooDeep h hd
    · exact .entered h hd hs

private theorem executes_fragment_shift_iff : Executes limit (.fragment (f.shift d)) c c' r ↔
    ∃ r₀, Executes limit (.fragment f) c c' r₀ ∧ r = r₀.map (Fault.shift d) := by
  have hmoved := Fragment.tokens_shift_eq d limit f
  cases h : f.tokens limit with
  | error e =>
    rw [h] at hmoved
    simp only [executes_unreadable_iff h, executes_unreadable_iff hmoved]
    constructor
    · rintro ⟨rfl, rfl⟩
      exact ⟨some e, ⟨rfl, rfl⟩, rfl⟩
    · rintro ⟨_, ⟨rfl, rfl⟩, rfl⟩
      exact ⟨rfl, rfl⟩
  | ok ts =>
    rw [h] at hmoved
    simp only [executes_readable_iff h, executes_readable_iff hmoved]
    constructor
    · rintro (⟨hd, rfl, rfl⟩ | ⟨hd, c₁, hs, rfl⟩)
      · exact ⟨_, .inl ⟨hd, rfl, rfl⟩, rfl⟩
      · obtain ⟨r₀, hs₀, rfl⟩ := (executes_shift_iff d).1 hs
        exact ⟨r₀, .inr ⟨hd, c₁, hs₀, rfl⟩, rfl⟩
    · rintro ⟨r₀, ⟨hd, rfl, rfl⟩ | ⟨hd, c₁, hs, rfl⟩, rfl⟩
      · exact .inl ⟨hd, rfl, rfl⟩
      · exact .inr ⟨hd, c₁, (executes_shift_iff d).2 ⟨r₀, hs, rfl⟩, rfl⟩

/-- A fragment elsewhere has the tokens of the fragment, or its fault, moved on by as much. What is
done to a context by executing the fragment there, and what the host hears, is what the fragment
does here, whether this ends or not, and the fault that may end it is moved on. -/
theorem moved_fragment_executes_alike (limit d : Nat) (f : Fragment) :
    (f.shift d).tokens limit = shiftResult d (List.map (Token.shift d)) (f.tokens limit) ∧
    (∀ (c c' : Context σ) (r : Option Fault), Executes limit (.fragment (f.shift d)) c c' r ↔
      ∃ r₀, Executes limit (.fragment f) c c' r₀ ∧ r = r₀.map (Fault.shift d)) ∧
    ∀ (ts : List Token) (c c' : Context σ),
      c.ComesTo limit (ts.map (Token.shift d)) c' ↔ c.ComesTo limit ts c' :=
  ⟨Fragment.tokens_shift_eq d limit f, fun _ _ _ => executes_fragment_shift_iff d,
    fun _ _ _ => comesTo_shift_iff d⟩

end BlueNexus
