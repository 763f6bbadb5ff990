import BlueNexus.Host.Recorder
import BlueNexus.Proofs.MachineRules
import BlueNexus.Proofs.SessionRuns

/-!
# The log of a run and the calls of its host

Every step that prints does so in the state and in a call alike, so at any time the output of the
state is made of the texts of the calls (`Session.Agrees`). The host hears of a fault once, in the
last call of a run that it ends (`log_agrees_with_calls`).
-/

namespace BlueNexus

/-- The message and the place of the fault that a call reports. -/
def Call.fault? : Call → Option (Text × Nat)
  | .notice (.fault message offset) => some (message, offset)
  | _ => none

/-- Neither state has printed more than the other, and both are halted or neither. -/
structure State.Logged (s s' : State) : Prop where
  printed : s'.printed = s.printed
  halted : s'.halted = s.halted

namespace State.Logged

theorem of_eq {s s' : State} (h : s' = s) : s.Logged s' := by
  subst h
  exact ⟨rfl, rfl⟩

theorem popInto (x : Name) (s : State) : s.Logged (s.popInto x) := by
  obtain h | ⟨n, stack, h⟩ := s.popInto_cases x
  · exact of_eq h
  · rw [h]
    exact ⟨rfl, rfl⟩

theorem copyInto (x : Name) (s : State) : s.Logged (s.copyInto x) := by
  obtain h | ⟨n, h⟩ := s.copyInto_cases x
  · exact of_eq h
  · rw [h]
    exact ⟨rfl, rfl⟩

theorem drop (param : Text) (s : State) : s.Logged (s.drop param) := by
  obtain ⟨stack, h⟩ | ⟨x, -, h⟩ := s.drop_cases param
  · rw [h]
    exact ⟨rfl, rfl⟩
  · rw [h]
    exact ⟨rfl, rfl⟩

end State.Logged

variable {limit : Nat} {s s' : State}

theorem Form.Acts.logged {f : Form} (h : f.Acts limit s s') : s.Logged s' := by
  cases h with
  | @pushVariable x s v h => cases v.front? <;> exact ⟨rfl, rfl⟩
  | copy x => exact .copyInto x s
  | drop param => exact .drop param s
  | _ => exact ⟨rfl, rfl⟩

theorem Form.Asks.logged {f : Form} {resume : Int64 → State} (h : f.Asks limit s resume)
    (n : Int64) : s.Logged (resume n) := by
  cases h with
  | _ => exact ⟨rfl, rfl⟩

theorem Glyph.Prints.logged {g : Glyph} {ts us : List Token} {t : Option Text}
    (h : g.Prints ts s t us s') : s.Logged s' := by
  cases h with
  | _ => exact ⟨rfl, rfl⟩

theorem Form.Shows.silent {f : Form} {n : Notice} (h : f.Shows s n) :
    (Call.notice n).text? = none ∧ (Call.notice n).fault? = none := by
  cases h with
  | _ => exact ⟨rfl, rfl⟩

/-- A move from `s` prints into the state what it tells, and tells of no fault. -/
def Move.Logs (s : State) : Move → Prop
  | .silent m => s.Logged m.state
  | .tell n m => m.state.halted = s.halted ∧
      m.state.output = s.output ++ (Call.notice n).text?.toList ∧ (Call.notice n).fault? = none
  | .ask resume => ∀ n, s.Logged (resume n).state
  | .finished => True
  | .failed _ _ => True

theorem Move.Logs.running {m : Move} (h : m.Logs s) (hs : s.halted = false) :
    m.Leads (·.state.halted = false) fun _ => True := by
  cases m with
  | silent m => exact h.halted.trans hs
  | tell n m => exact h.1.trans hs
  | ask resume => exact fun n => (h n).halted.trans hs
  | finished => trivial
  | failed e s => trivial

namespace Machine

variable {tasks rest past : List Task} {m : Move} {depth : Nat}

theorem Enters.logs {f : Fragment} (h : Enters limit depth f rest s m) : m.Logs s := by
  cases h with
  | unreadable => trivial
  | tooDeep => trivial
  | entered => exact .of_eq rfl

theorem EntersIf.logs {predicate command : Fragment}
    (h : EntersIf limit depth predicate command rest past s m) : m.Logs s := by
  cases h with
  | unreadable => trivial
  | passed => exact .of_eq rfl
  | holding _ he => exact he.logs

theorem Steps.logs (h : Steps limit tasks s m) : m.Logs s := by
  cases h with
  | act _ _ _ h => exact h.logged
  | ask _ _ _ h => exact h.logged
  | snapshot _ _ _ h =>
    obtain ⟨ht, hf⟩ := h.silent
    exact ⟨rfl, by simp [ht], hf⟩
  | print _ _ _ h =>
    obtain ⟨hp, hh⟩ := h.logged
    refine ⟨hh, ?_, rfl⟩
    rw [State.output_print, State.output, hp]
    rfl
  | printNothing _ _ _ h => exact h.logged
  | block _ _ _ _ _ h => exact h.logs
  | once _ _ _ _ h => exact h.logs
  | store x => exact .popInto x s
  | loop _ _ h => exact h.logs
  | times _ _ _ h => exact h.logs
  | halted | done | printUnbound | pushUnbound => trivial
  | codeOver | whilst | each | timesOver => exact .of_eq rfl

end Machine

namespace Session

variable {σ : Type} [Host σ] {host : σ} {t z : Session σ}

theorem Reaches.running (h : t.Reaches limit z) (ht : t.machine.state.halted = false) :
    z.machine.state.halted = false :=
  h.invariant (fun m hm => (Machine.steps_step limit m).logs.running hm) ht

/-- A run that began with `host` and has met no fault: its calls are those that its host has heard,
and their texts are its output. -/
structure Agrees (host : σ) (t : Session σ) : Prop where
  running : t.machine.state.halted = false
  output : t.machine.state.output = t.calls.reverse.filterMap Call.text?
  faultless : t.calls.filterMap Call.fault? = []
  heard : t.host = t.calls.reverse.foldl (fun h c => Host.after c h) host

theorem agrees_start (ts : List Token) (host : σ) : (start ts host).Agrees host :=
  ⟨rfl, rfl, rfl, rfl⟩

theorem Agrees.silent (h : t.Agrees host) {m : Machine} (hm : t.machine.state.Logged m.state) :
    Agrees host { t with machine := m } where
  running := hm.halted.trans h.running
  output := by rw [← h.output, State.output, hm.printed]; rfl
  faultless := h.faultless
  heard := h.heard

theorem Agrees.call (h : t.Agrees host) {m : Machine} {c : Call}
    (hh : m.state.halted = t.machine.state.halted)
    (ho : m.state.output = t.machine.state.output ++ c.text?.toList) (hf : c.fault? = none) :
    Agrees host (Session.call c { t with machine := m }) where
  running := hh.trans h.running
  output := by
    change m.state.output = _
    rw [ho, h.output]
    cases hc : c.text? <;> simp [hc]
  faultless := by simp [hf, h.faultless]
  heard := by simp [h.heard]

theorem Agrees.next (h : t.Agrees host) (hn : Next limit t z) : z.Agrees host := by
  have hl := (Machine.steps_step limit t.machine).logs
  obtain ⟨_, hm, hgoes⟩ := hn.goes
  rw [hm] at hl
  cases hgoes with
  | silent m => exact h.silent hl
  | tell n m => exact h.call hl.1 hl.2.1 hl.2.2
  | ask resume =>
    have ha := hl (Host.reply t.host).scalar
    refine h.call ha.halted ?_ rfl
    simp [State.output, ha.printed, Call.text?]

theorem Agrees.reaches (h : t.Agrees host) (hr : t.Reaches limit z) : z.Agrees host := by
  induction hr with
  | refl => exact h
  | tail _ hn ih => exact ih.next hn

end Session

/-- What the report on a run says of it: the log and the calls agree, and a fault comes last. -/
structure Report.Agrees {σ : Type} [Host σ] (host : σ) (r : Report σ) : Prop where
  heard : r.host = r.calls.foldl (fun h c => Host.after c h) host
  halted : r.state.halted = r.fault.isSome
  output : r.state.output = r.calls.filterMap Call.text? ++ (r.fault.map Fault.message).toList
  faults : r.calls.filterMap Call.fault? = (r.fault.map fun e => (e.message, e.offset)).toList
  last : ∀ e, r.fault = some e → r.calls.getLast? = some (.notice (.fault e.message e.offset))

theorem Session.Agrees.report {σ : Type} [Host σ] {host : σ} {t : Session σ} (h : t.Agrees host)
    (settings : Settings) (fault : Option Fault) : (t.report settings fault).Agrees host := by
  cases fault with
  | none =>
    have hc : (t.conclude settings none).Agrees host := by
      unfold conclude
      dsimp only
      split
      · exact h.call rfl (State.output_print _ _) rfl
      · exact h
    refine ⟨hc.heard, hc.running, ?_, ?_, ?_⟩
    · change (t.conclude settings none).machine.state.output = _ ++ []
      rw [List.append_nil]
      exact hc.output
    · change (t.conclude settings none).calls.reverse.filterMap Call.fault? = []
      rw [List.filterMap_reverse, hc.faultless, List.reverse_nil]
    · intro e he
      cases he
  | some e =>
    have hcalls : (t.report settings (some e)).calls =
        t.calls.reverse ++ [.notice (.fault e.message e.offset)] := List.reverse_cons
    refine ⟨?_, rfl, ?_, ?_, ?_⟩
    · rw [hcalls, List.foldl_append, ← h.heard]
      rfl
    · rw [hcalls, List.filterMap_append, ← h.output]
      change (t.machine.state.print e.message).output = _
      simp [Call.text?, Session.report]
    · rw [hcalls, List.filterMap_append, List.filterMap_reverse, h.faultless]
      rfl
    · intro e' he
      cases he
      rw [hcalls, List.getLast?_concat]

/-- At any time the output of a run is that of its calls, and at its end the outcome, the log and
the calls of the host agree. -/
theorem log_agrees_with_calls {σ : Type} [Host σ] (settings : Settings) (source : Text)
    (host : σ) :
    (∀ ts t, programTokens settings.limit source = .ok ts →
      (Session.start ts host).Reaches settings.limit t →
      t.machine.state.output = t.calls.reverse.filterMap Call.text?) ∧
    ∀ steps report, runProgram settings source host steps = some report →
      report.host = report.calls.foldl (fun h c => Host.after c h) host ∧
      (report.fault = none → report.state.halted = false ∧
        report.calls.filterMap Call.fault? = [] ∧
        report.state.output = report.calls.filterMap Call.text?) ∧
      ∀ e, report.fault = some e → report.state.halted = true ∧
        report.calls.filterMap Call.fault? = [(e.message, e.offset)] ∧
        report.calls.getLast? = some (.notice (.fault e.message e.offset)) ∧
        report.state.output = report.calls.filterMap Call.text? ++ [e.message] := by
  refine ⟨fun ts t _ ht => ((Session.agrees_start ts host).reaches ht).output,
    fun steps report hr => ?_⟩
  have ha : report.Agrees host := by
    rcases exists_runProgram_iff.1 ⟨steps, hr⟩ with ⟨e, _, rfl⟩ | ⟨ts, t, fault, _, ht, rfl⟩
    · exact (Session.agrees_start [] host).report settings (some e)
    · exact ((Session.agrees_start ts host).reaches ht.1).report settings fault
  obtain ⟨heard, halted, output, faults, last⟩ := ha
  refine ⟨heard, fun h => ?_, fun e h => ?_⟩
  · simp only [h] at halted output faults
    exact ⟨halted, faults, by simpa using output⟩
  · simp only [h] at halted output faults
    exact ⟨halted, faults, last e h, output⟩

theorem log_agrees_on_nested_fault :
    ∃ ts t report e,
      programTokens 64 ['1', '#', '>', 'a', '<', '#', 'x', '<'] = .ok ts ∧
      (Session.start ts ({ queue := [] } : Recorder)).Reaches 64 t ∧
      t.machine.state.output = t.calls.reverse.filterMap Call.text? ∧
      runProgram {} ['1', '#', '>', 'a', '<', '#', 'x', '<'] ({ queue := [] } : Recorder) 9 =
        some report ∧
      report.fault = some e ∧ report.calls.filterMap Call.fault? = [(e.message, e.offset)] ∧
      report.state.output = report.calls.filterMap Call.text? ++ [e.message] := by
  let source := ['1', '#', '>', 'a', '<', '#', 'x', '<']
  let host : Recorder := { queue := [] }
  obtain ⟨ts, hts⟩ : ∃ ts, programTokens 64 source = .ok ts := ⟨_, rfl⟩
  obtain ⟨t, hn⟩ : ∃ t, Session.Next 64 (Session.start ts host) t := by
    cases hts
    exact ⟨_, rfl⟩
  obtain ⟨report, hr, he⟩ : ∃ report, runProgram {} source host 9 = some report ∧
      report.fault = some (.undefinedVariable 6 ⟨'x', rfl⟩) := ⟨_, rfl, rfl⟩
  have hlog := log_agrees_with_calls {} source host
  obtain ⟨-, hfaults, -, houtput⟩ := (hlog.2 9 report hr).2.2 _ he
  exact ⟨ts, t, report, _, hts, .single hn, hlog.1 ts t hts (.single hn), hr, he, hfaults, houtput⟩

end BlueNexus
