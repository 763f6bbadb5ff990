import BlueNexus.Proofs.MachineFrame
import BlueNexus.Proofs.ShiftedTokens

/-!
# Runs elsewhere

A machine whose code is moved on in its source, and stands some levels deeper under a limit that
leaves room for them, takes the same steps: the states and the calls are the same, and a fault is
moved on with the code (`Ends.relocate`).
-/

namespace BlueNexus

/-- The task with its code moved on by `d` and put `k` levels deeper. -/
def Task.relocate (d k : Nat) : Task → Task
  | .code depth ts => .code (depth + k) (ts.map (Token.shift d))
  | .store x => .store x
  | .loop depth predicate command => .loop (depth + k) (predicate.shift d) (command.shift d)
  | .times depth n command => .times (depth + k) n (command.shift d)

def Machine.relocate (d k : Nat) (m : Machine) : Machine :=
  { m with tasks := m.tasks.map (Task.relocate d k) }

variable {limit limit' depth : Nat} {s s' : State} (d k : Nat)

theorem Fragment.tokens_shift_ok (hle : limit ≤ limit') {f : Fragment} {ts : List Token}
    (h : f.tokens limit = .ok ts) : (f.shift d).tokens limit' = .ok (ts.map (Token.shift d)) := by
  rw [tokens_shift d hle (fun o l he => by simp [h] at he), h]
  rfl

theorem Fragment.tokens_shift_error (hle : limit ≤ limit') {f : Fragment} {e : Fault}
    (h : f.tokens limit = .error e) (he : ∀ o l, e = .nestingTooDeep o l → limit = limit') :
    (f.shift d).tokens limit' = .error (e.shift d) := by
  have hfits : Fits limit limit' (f.tokens limit) := by
    intro o l hcut
    rw [h] at hcut
    exact he o l (Except.error.inj hcut)
  rw [tokens_shift d hle hfits, h]
  rfl

@[simp] theorem Assignment.Meaning.ofTokens_shift (ts : List Token) :
    ofTokens (ts.map (Token.shift d)) = ofTokens ts := by
  match ts with
  | [] => rfl
  | [⟨f, o⟩] =>
    cases f with
    | glyph g => cases g <;> rfl
    | _ => rfl
  | ⟨f, o⟩ :: ⟨f', o'⟩ :: us =>
    cases f with
    | glyph g =>
      cases g with
      | dot =>
        cases f' with
        | glyph g' => cases g' <;> rfl
        | _ => rfl
      | _ => rfl
    | _ => rfl

namespace Condition

@[simp] private theorem operand?_shift (f : Form) : operand? s (f.shift d) = operand? s f := by
  cases f <;> rfl

@[simp] private theorem comparison?_shift (f : Form) : comparison? (f.shift d) = comparison? f := by
  cases f <;> rfl

@[simp] private theorem judge_shift (ts : List Token) :
    judge s (ts.map (Token.shift d)) = judge s ts := by
  match ts with
  | [l, op, r] =>
    simp only [List.map_cons, List.map_nil, judge, Token.shift, operand?_shift, comparison?_shift]
  | [] | [_] | [_, _] | _ :: _ :: _ :: _ :: _ => rfl

theorem holds_shift (hle : limit ≤ limit') {predicate : Fragment} {b : Bool}
    (h : holds limit s predicate = .ok b) : holds limit' s (predicate.shift d) = .ok b := by
  unfold holds at h ⊢
  cases ht : predicate.tokens limit with
  | error e => simp [ht, Except.map] at h
  | ok ts =>
    rw [ht] at h
    rw [Fragment.tokens_shift_ok d hle ht]
    simp only [Except.map, judge_shift] at h ⊢
    exact h

end Condition

theorem Form.Shows.shift {f : Form} {n : Notice} (h : f.Shows s n) : (f.shift d).Shows s n := by
  cases h with
  | stack => exact .stack s
  | value h => exact .value h

theorem Form.Acts.shift (hle : limit ≤ limit') {f : Form} (h : f.Acts limit s s') :
    (f.shift d).Acts limit' s s' := by
  have tokens : ∀ {body : Fragment} {ts : List Token} {m : Assignment.Meaning},
      body.tokens limit = .ok ts → Assignment.Meaning.ofTokens ts = m →
      ∃ us, (body.shift d).tokens limit' = .ok us ∧ Assignment.Meaning.ofTokens us = m :=
    fun ht hm => ⟨_, Fragment.tokens_shift_ok d hle ht,
      (Assignment.Meaning.ofTokens_shift d _).trans hm⟩
  cases h with
  | number n s => exact .number n s
  | pushNumber n s => exact .pushNumber n s
  | pushVariable h => exact .pushVariable h
  | operate s hg => exact .operate s hg
  | nothing x s ht hm =>
    obtain ⟨us, hus, hm⟩ := tokens ht hm
    exact .nothing x s hus hm
  | copy x s ht hm =>
    obtain ⟨us, hus, hm⟩ := tokens ht hm
    exact .copy x s hus hm
  | assign x s ht hm =>
    obtain ⟨us, hus, hm⟩ := tokens ht hm
    exact .assign x s hus hm
  | append x s ht hm =>
    obtain ⟨us, hus, hm⟩ := tokens ht hm
    exact .append x s hus hm
  | expression x t s => exact .expression x t s
  | unknown t predicate command s => exact .unknown t _ _ s
  | drop param s => exact .drop param s
  | debug h => exact .debug h
  | rotate x s => exact .rotate x s
  | string t s => exact .string t s
  | mention x s => exact .mention x s
  | comparison op s => exact .comparison op s

theorem Form.Asks.shift (hle : limit ≤ limit') {f : Form} {resume : Int64 → State}
    (h : f.Asks limit s resume) : (f.shift d).Asks limit' s resume := by
  cases h with
  | pushInput s => exact .pushInput s
  | input x s ht hm =>
    exact .input x s (Fragment.tokens_shift_ok d hle ht)
      ((Assignment.Meaning.ofTokens_shift d _).trans hm)
  | appendInput x s ht hm =>
    exact .appendInput x s (Fragment.tokens_shift_ok d hle ht)
      ((Assignment.Meaning.ofTokens_shift d _).trans hm)

private theorem Form.eq_of_shift_variable {f : Form} {x : Name} (h : f.shift d = .variable x) :
    f = .variable x := by
  cases f <;> cases h
  rfl

theorem Glyph.Prints.shift {g : Glyph} {ts us : List Token} {t : Option Text}
    (h : g.Prints ts s t us s') :
    g.Prints (ts.map (Token.shift d)) s t (us.map (Token.shift d)) s' := by
  have head : ∀ {ts : List Token}, (∀ x o us, ts ≠ ⟨.variable x, o⟩ :: us) →
      ∀ x o us, ts.map (Token.shift d) ≠ ⟨.variable x, o⟩ :: us := by
    intro ts h x o us hts
    obtain ⟨⟨f, o'⟩, vs, rfl, hu, -⟩ := List.map_eq_cons_iff.1 hts
    cases Form.eq_of_shift_variable d (congrArg Token.form hu)
    exact h x o' vs rfl
  cases h with
  | newline ts s => exact .newline _ s
  | topNumber s h => exact .topNumber s (head h)
  | topChar s h => exact .topChar s (head h)
  | whole o ts h => exact .whole _ _ h
  | front o ts h => exact .front _ _ h

namespace Machine

variable {tasks rest past : List Task} {m : Move}

theorem Enters.relocate {f : Fragment} (h : Enters limit depth f rest s m)
    (hk : limit + k ≤ limit')
    (hm : ∀ o l s', m = .failed (.nestingTooDeep o l) s' → limit = limit') :
    Enters limit' (depth + k) (f.shift d) (rest.map (Task.relocate d k)) s
      (m.map (relocate d k) (Fault.shift d)) := by
  have hle : limit ≤ limit' := by omega
  cases h with
  | unreadable h =>
    refine .unreadable (Fragment.tokens_shift_error d hle h fun o l he => ?_)
    exact hm o l s (congrArg (Move.failed · s) he)
  | tooDeep h hd =>
    have heq := hm _ _ _ rfl
    subst heq
    exact .tooDeep (Fragment.tokens_shift_ok d hle h) (by omega)
  | @entered ts h hd =>
    have hroom : depth + k < limit' := by omega
    have hentered : Enters limit' (depth + k) (f.shift d) (rest.map (Task.relocate d k)) s
        (.silent ⟨.code (depth + k + 1) (ts.map (Token.shift d)) :: rest.map (Task.relocate d k),
          s⟩) := .entered (Fragment.tokens_shift_ok d hle h) hroom
    rwa [show depth + k + 1 = depth + 1 + k by omega] at hentered

theorem EntersIf.relocate {predicate command : Fragment}
    (h : EntersIf limit depth predicate command rest past s m)
    (hk : limit + k ≤ limit')
    (hm : ∀ o l s', m = .failed (.nestingTooDeep o l) s' → limit = limit') :
    EntersIf limit' (depth + k) (predicate.shift d) (command.shift d)
      (rest.map (Task.relocate d k)) (past.map (Task.relocate d k)) s
      (m.map (relocate d k) (Fault.shift d)) := by
  have hle : limit ≤ limit' := by omega
  cases h with
  | unreadable h =>
    refine .unreadable (Fragment.tokens_shift_error d hle h fun o l he => ?_)
    exact hm o l s (congrArg (Move.failed · s) he)
  | passed h => exact .passed (Condition.holds_shift d hle h)
  | holding h he => exact .holding (Condition.holds_shift d hle h) (he.relocate d k hk hm)

/-- Every rule applies elsewhere as well. -/
theorem Steps.relocate (h : Steps limit tasks s m) (hk : limit + k ≤ limit')
    (hm : ∀ o l s', m = .failed (.nestingTooDeep o l) s' → limit = limit') :
    Steps limit' (tasks.map (Task.relocate d k)) s (m.map (relocate d k) (Fault.shift d)) := by
  have hle : limit ≤ limit' := by omega
  cases h with
  | halted h => exact .halted h
  | done s => exact .done s
  | codeOver depth rest s => exact .codeOver _ _ s
  | act depth ts rest h => exact .act _ _ _ (h.shift d hle)
  | ask depth ts rest h => exact .ask _ _ _ (h.shift d hle)
  | snapshot depth ts rest h => exact .snapshot _ _ _ (h.shift d)
  | print depth o rest h => exact .print _ _ _ (h.shift d)
  | printNothing depth o rest h => exact .printNothing _ _ _ (h.shift d)
  | printUnbound depth o o' ts rest hg h => exact .printUnbound _ _ _ _ _ hg h
  | pushUnbound depth o ts rest h => exact .pushUnbound _ _ _ _ h
  | @block x body s m depth o ts rest hmeaning h =>
    refine .block _ _ _ _ (fun us hus => ?_) (h.relocate d k hk hm)
    cases hts : body.tokens limit with
    | error e =>
      have he : ∀ o l, e = .nestingTooDeep o l → limit = limit' := by
        cases h with
        | unreadable h =>
          cases hts.symm.trans h
          exact fun o l he => hm o l s (congrArg (Move.failed · s) he)
        | tooDeep h | entered h => cases hts.symm.trans h
      cases (Fragment.tokens_shift_error d hle hts he).symm.trans hus
    | ok vs =>
      cases (Fragment.tokens_shift_ok d hle hts).symm.trans hus
      exact (Assignment.Meaning.ofTokens_shift d vs).trans (hmeaning vs hts)
  | once depth o ts rest h => exact .once _ _ _ _ (h.relocate d k hk hm)
  | whilst predicate command s depth o ts rest => exact .whilst _ _ s _ _ _ _
  | each predicate command s depth o ts rest => exact .each _ _ s _ _ _ _
  | store x rest s => exact .store x _ s
  | loop depth rest h => exact .loop _ _ (h.relocate d k hk hm)
  | timesOver depth command rest s => exact .timesOver _ _ _ s
  | times depth n rest h => exact .times _ n _ (h.relocate d k hk hm)

theorem step_relocate {n : Machine} (hk : limit + k ≤ limit')
    (hm : ∀ o l s, n.step limit = .failed (.nestingTooDeep o l) s → limit = limit') :
    (n.relocate d k).step limit' = (n.step limit).map (relocate d k) (Fault.shift d) := by
  by_cases hh : n.state.halted = true
  · rw [step_of_halted hh, step_of_halted (n := n.relocate d k) hh]
    rfl
  · exact step_eq_of_steps ((steps_step limit n).relocate d k hk hm) (Bool.eq_false_iff.2 hh)

end Machine

namespace Session

variable {σ : Type} [Host σ] {t t' z : Session σ} {fault : Option Fault}

theorem Next.relocate (h : Next limit t t') (hk : limit + k ≤ limit') :
    Next limit' (t.mapMachine (.relocate d k)) (t'.mapMachine (.relocate d k)) := by
  refine h.mapMachine (Machine.step_relocate d k hk fun o l s hm => ?_)
  simp [Next, step_eq, hm, move] at h

theorem Reaches.relocate (h : t.Reaches limit z) (hk : limit + k ≤ limit') :
    (t.mapMachine (.relocate d k)).Reaches limit' (z.mapMachine (.relocate d k)) := by
  induction h with
  | refl => exact .refl
  | tail _ hn ih => exact ih.tail (hn.relocate d k hk)

theorem Ends.relocate (h : t.Ends limit z fault) (hk : limit + k ≤ limit')
    (hf : ∀ o l, fault = some (.nestingTooDeep o l) → limit = limit') :
    (t.mapMachine (.relocate d k)).Ends limit' (z.mapMachine (.relocate d k))
      (fault.map (Fault.shift d)) := by
  have hz := step_ended_iff.1 h.2
  have hm : ∀ o l s, z.machine.step limit = .failed (.nestingTooDeep o l) s → limit = limit' := by
    intro o l s he
    rw [hz] at he
    cases fault with
    | none => cases he
    | some e =>
      cases he
      exact hf o l rfl
  refine ⟨h.1.relocate d k hk, step_ended_iff.2 ?_⟩
  change (z.machine.relocate d k).step limit' = _
  rw [Machine.step_relocate d k hk hm, hz]
  cases fault <;> rfl

end Session

end BlueNexus
