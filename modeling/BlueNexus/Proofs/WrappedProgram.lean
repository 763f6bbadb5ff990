import BlueNexus.Host.Recorder
import BlueNexus.Proofs.BalancedText
import BlueNexus.Proofs.CallLog
import BlueNexus.Proofs.PushFusion
import BlueNexus.Proofs.ShiftedRuns
import BlueNexus.Proofs.SourceBreaks

/-!
# Programs wrapped in a condition that holds

A program may stand as the command of a conditional that holds. It runs there as it runs alone, one
level deeper, and its faults are moved on by the length of what stands in front of it
(`runProgram_wrapped`).
-/

namespace BlueNexus

/-- What stands in front of a wrapped program. -/
def wrapperFront : Text := ['?', '[', '!', '?', ']', '{', '1', '=', '1', '}', '(']

def wrapped (source : Text) : Text := wrapperFront ++ source ++ [')']

/-- The only token of a wrapped program. -/
def wrapper (command : Fragment) : Token :=
  ⟨.conditional .once ⟨['1', '=', '1'], 6, []⟩ command, 0⟩

namespace Settings

private theorem limit_of_pos (s : Settings) (h : 0 < s.maxNestingDepth) :
    s.limit = s.maxNestingDepth := by
  unfold limit
  omega

private theorem limit_withMaxNestingDepth (s : Settings) {depth : Nat} (h : 0 < depth) :
    (s.withMaxNestingDepth depth).limit = depth := by
  simp only [limit, withMaxNestingDepth]
  omega

end Settings

namespace Fragment

private theorem ofSource_wrapped (source : Text) :
    ofSource (wrapped source) = ⟨wrapperFront ++ (ofSource source).text ++ [')'], 0,
      (ofSource source).breaks.map (· + 11)⟩ := by
  have htext : (ofSource (wrapped source)).text =
      wrapperFront ++ (ofSource source).text ++ [')'] := by
    rw [wrapped, ofSource_text_append, ofSource_text_append]
    rfl
  have hfront : sourceBreaks 0 false false (wrapped source) =
      sourceBreaks (0 + 11) false false (source ++ [')']) := rfl
  have hbreaks : (ofSource (wrapped source)).breaks = (ofSource source).breaks.map (· + 11) := by
    change sourceBreaks 0 false false (wrapped source) = _
    rw [hfront, sourceBreaks_add, sourceBreaks_concat (by decide) (by decide)]
    rfl
  rw [← htext, ← hbreaks]
  rfl

variable {depth : Nat} {source : Text}

private theorem read_wrapped (h : Nesting.Balanced depth (ofSource source).text) :
    Form.read (depth + 1) ((ofSource source).breaks.map (· + 11)) 0 '?'
      (wrapperFront.tail ++ (ofSource source).text ++ [')']) =
        .ok ⟨some (.conditional .once ⟨['1', '=', '1'], 6, []⟩ ((ofSource source).shift 11)),
          (ofSource source).text.length + 11⟩ := by
  have hheading : Form.Heading.ofText? (wrapperFront.tail ++ (ofSource source).text ++ [')']) =
      some ⟨['!', '?'], ['1', '=', '1'], (ofSource source).text ++ [')']⟩ := rfl
  have hcommand : code ((ofSource source).breaks.map (· + 11)) (0 + 11)
      (((ofSource source).text ++ [')']).take (ofSource source).text.length) =
        (ofSource source).shift 11 := by
    rw [List.take_left, ← code_shift, code_ofSource]
  have hextent := Nesting.extent_of_balanced h []
  have hlength : ['!', '?'].length + ['1', '=', '1'].length + (ofSource source).text.length + 6 =
      (ofSource source).text.length + 11 := by
    simp only [List.length_cons, List.length_nil]
    omega
  unfold Form.read
  rw [if_pos rfl]
  simp only [Form.readConditional, hheading, hextent, hlength]
  rw [← hcommand]
  rfl

theorem tokens_wrapped (h : Nesting.Balanced depth (ofSource source).text) :
    (ofSource (wrapped source)).tokens (depth + 1) =
      .ok [wrapper ((ofSource source).shift 11)] := by
  have hread := read_wrapped h
  have hcons : wrapperFront ++ (ofSource source).text ++ [')'] =
      '?' :: (wrapperFront.tail ++ (ofSource source).text ++ [')']) := rfl
  have hrest : (wrapperFront.tail ++ (ofSource source).text ++ [')']).drop
      ((ofSource source).text.length + 11) = [] := by
    refine List.drop_eq_nil_of_le ?_
    simp only [List.length_append, wrapperFront, List.tail_cons, List.length_cons, List.length_nil]
    omega
  rw [ofSource_wrapped, tokens, hcons, tokensFrom, hread]
  dsimp only
  rw [tokensFrom_skip, hrest]
  rfl

end Fragment

@[simp] theorem Condition.holds_wrapper (limit : Nat) (s : State) :
    holds limit s ⟨['1', '=', '1'], 6, []⟩ = .ok true := rfl

/-- The call that reports a fault. -/
def Call.ofFault (e : Fault) : Call := .notice (.fault e.message e.offset)

namespace Session

variable {σ : Type} [Host σ] {limit : Nat} {t z : Session σ} {us : List Token} {host : σ}
  {fault : Option Fault}

theorem report_shift (d : Nat) (settings settings' : Settings)
    (hn : settings'.completionNotice = settings.completionNotice)
    (hs : z.machine.state = t.machine.state) (hc : z.calls = t.calls) (fault : Option Fault) :
    (z.report settings' (fault.map (Fault.shift d))).state.stack =
        (t.report settings fault).state.stack ∧
      (z.report settings' (fault.map (Fault.shift d))).state.variables =
        (t.report settings fault).state.variables ∧
      ∃ calls, (t.report settings fault).calls = calls ++ (fault.map Call.ofFault).toList ∧
        (z.report settings' (fault.map (Fault.shift d))).calls =
          calls ++ ((fault.map (Fault.shift d)).map Call.ofFault).toList := by
  cases fault with
  | some e =>
    have hstack : z.machine.state.stack = t.machine.state.stack := by rw [hs]
    have hvariables : z.machine.state.variables = t.machine.state.variables := by rw [hs]
    refine ⟨hstack, hvariables, t.calls.reverse, ?_, ?_⟩
    · exact List.reverse_cons
    · rw [← hc]
      exact List.reverse_cons
  | none =>
    have hcalls : (z.report settings' none).calls = (t.report settings none).calls ∧
        (z.report settings' none).state = (t.report settings none).state := by
      simp only [report, conclude, hn, hs]
      split
      · simp [print, call, hs, hc]
      · simp [hs, hc]
    refine ⟨congrArg State.stack hcalls.2, congrArg State.variables hcalls.2,
      (t.report settings none).calls, ?_, ?_⟩
    · simp
    · simpa using hcalls.1

theorem ends_command (hz : (start (PushMarker.fuse us) host).Ends limit z fault)
    (hus : PushMarker.Inert us) (hf : ∀ o l, fault ≠ some (.nestingTooDeep o l)) (d : Nat) :
    ∃ z', (Session.mk ⟨[.code 1 (us.map (Token.shift d)), .code 0 []], {}⟩ host []).Ends
      (limit + 1) z' (fault.map (Fault.shift d)) ∧ z'.machine.state = z.machine.state ∧
        z'.calls = z.calls := by
  have hfuse : Behind PushMarker.Fuses (start (PushMarker.fuse us) host) (start us host) :=
    .over ⟨⟨[], {}⟩, host, []⟩ (.code 0 hus)
  obtain ⟨z₁, h₁, hstate, -, hcalls⟩ :=
    (PushMarker.sideBySide_fuses hfuse).ends PushMarker.sideBySide_fuses hz
  have h₂ := h₁.relocate d 1 (Nat.le_refl (limit + 1)) (fun o l h => absurd h (hf o l))
  cases fault with
  | some e => exact ⟨_, h₂.before [.code 0 []], hstate, hcalls⟩
  | none =>
    have hrunning : z.machine.state.halted = false := hz.1.running rfl
    have hover := h₂.reaches_behind (hstate ▸ hrunning) [.code 0 []]
    exact ⟨_, (ends_of_no_tokens 0 (hstate ▸ hrunning) _ _).of_reaches hover, hstate, hcalls⟩

theorem next_command {command : Fragment} {ts : List Token} (hlimit : 0 < limit)
    (ht : command.tokens limit = .ok ts) (host : σ) :
    Next limit (start [wrapper command] host) ⟨⟨[.code 1 ts, .code 0 []], {}⟩, host, []⟩ := by
  have hsteps : Machine.Steps limit [.code 0 [wrapper command]] {}
      (.silent ⟨[.code 1 ts, .code 0 []], {}⟩) :=
    .once 0 0 [] [] (.holding (Condition.holds_wrapper limit {}) (.entered ht hlimit))
  exact congrArg (move _) (Machine.step_eq_of_steps hsteps rfl)

theorem ends_unreadable {command : Fragment} {e : Fault} (ht : command.tokens limit = .error e)
    (host : σ) :
    (start [wrapper command] host).Ends limit (start [wrapper command] host) (some e) := by
  have hsteps : Machine.Steps limit [.code 0 [wrapper command]] {} (.failed e {}) :=
    .once 0 0 [] [] (.holding (Condition.holds_wrapper limit {}) (.unreadable ht))
  exact ⟨.refl, step_ended_iff.2 (Machine.step_eq_of_steps hsteps rfl)⟩

end Session

/-- A program whose parentheses are balanced, wrapped in a conditional that holds, does what it does
alone, and its faults are moved on by the length of what is in front of it. -/
theorem runProgram_wrapped {σ : Type} [Host σ] (settings : Settings) (source : Text) (host : σ)
    (steps : Nat) (report : Report σ) (hlimit : 1 ≤ settings.maxNestingDepth)
    (hbalanced : Nesting.Balanced settings.maxNestingDepth (Fragment.ofSource source).text)
    (hinert : ∀ ts, (Fragment.ofSource source).tokens settings.maxNestingDepth = .ok ts →
      PushMarker.Inert ts)
    (hrun : runProgram settings source host steps = some report)
    (hfits : ∀ o l, report.fault ≠ some (.nestingTooDeep o l)) :
    ∃ steps' report',
      runProgram (settings.withMaxNestingDepth (settings.maxNestingDepth + 1)) (wrapped source) host
        steps' = some report' ∧
      report'.state.stack = report.state.stack ∧
      report'.state.variables = report.state.variables ∧
      report'.fault = report.fault.map (Fault.shift 11) ∧
      ∃ calls, report.calls = calls ++ (report.fault.map Call.ofFault).toList ∧
        report'.calls = calls ++ (report'.fault.map Call.ofFault).toList := by
  have hdepth := settings.limit_of_pos hlimit
  have hdepth' : (settings.withMaxNestingDepth (settings.maxNestingDepth + 1)).limit =
      settings.maxNestingDepth + 1 := settings.limit_withMaxNestingDepth (Nat.succ_pos _)
  have htokens : programTokens (settings.maxNestingDepth + 1) (wrapped source) =
      .ok [wrapper ((Fragment.ofSource source).shift 11)] := by
    rw [programTokens, Fragment.tokens_wrapped hbalanced]
    rfl
  have hle : settings.maxNestingDepth ≤ settings.maxNestingDepth + 1 := Nat.le_succ _
  suffices h : ∃ (t z : Session σ) (fault : Option Fault), report = t.report settings fault ∧
      (Session.start [wrapper ((Fragment.ofSource source).shift 11)] host).Ends
        (settings.maxNestingDepth + 1) z (fault.map (Fault.shift 11)) ∧
      z.machine.state = t.machine.state ∧ z.calls = t.calls by
    obtain ⟨t, z, fault, rfl, hends, hstate, hcalls⟩ := h
    obtain ⟨steps', hrun'⟩ := exists_runProgram_iff.2 <|
      .inr ⟨_, z, fault.map (Fault.shift 11), hdepth'.symm ▸ htokens, hdepth'.symm ▸ hends, rfl⟩
    have hshift := Session.report_shift 11 settings
      (settings.withMaxNestingDepth (settings.maxNestingDepth + 1)) rfl hstate hcalls fault
    exact ⟨steps', _, hrun', hshift.1, hshift.2.1, rfl, hshift.2.2⟩
  rcases exists_runProgram_iff.1 ⟨steps, hrun⟩ with ⟨e, ht, rfl⟩ | ⟨ts, t, fault, ht, hz, rfl⟩
  · have hts := programTokens_eq_error_iff.1 (hdepth ▸ ht)
    have he : ∀ o l, e ≠ .nestingTooDeep o l := fun o l h => hfits o l (congrArg some h)
    have hshift := Fragment.tokens_shift_error 11 hle hts fun o l h => absurd h (he o l)
    exact ⟨_, _, some e, rfl, Session.ends_unreadable hshift host, rfl, rfl⟩
  · obtain ⟨us, hus, rfl⟩ := programTokens_eq_ok_iff.1 (hdepth ▸ ht)
    obtain ⟨z, hends, hstate, hcalls⟩ := Session.ends_command (hdepth ▸ hz) (hinert us hus) hfits 11
    have hnext := Session.next_command (Nat.succ_pos _) (Fragment.tokens_shift_ok 11 hle hus) host
    exact ⟨t, z, fault, rfl, hends.head hnext, hstate, hcalls⟩

theorem runProgram_wrapped_shifts_fault :
    ∃ report steps report',
      runProgram {} ['▲', '1', ' ', '2', '?', '[', '!', '?', ']', '{', '1', '=', '1', '}', '(', '#',
        'x', ')'] ({ queue := [] } : Recorder) 9 = some report ∧
      runProgram (Settings.withMaxNestingDepth 65 {}) (wrapped ['▲', '1', ' ', '2', '?', '[', '!',
        '?', ']', '{', '1', '=', '1', '}', '(', '#', 'x', ')']) ({ queue := [] } : Recorder) steps =
          some report' ∧
      report'.state.stack = report.state.stack ∧
      report.fault = some (.undefinedVariable 15 ⟨'x', rfl⟩) ∧
      report'.fault = some (.undefinedVariable 26 ⟨'x', rfl⟩) := by
  let source := ['▲', '1', ' ', '2', '?', '[', '!', '?', ']', '{', '1', '=', '1', '}', '(', '#',
    'x', ')']
  obtain ⟨report, hrun, hfault⟩ : ∃ report,
      runProgram {} source ({ queue := [] } : Recorder) 9 = some report ∧
        report.fault = some (.undefinedVariable 15 ⟨'x', rfl⟩) := ⟨_, rfl, rfl⟩
  obtain ⟨ts, hts, hinert⟩ : ∃ ts, (Fragment.ofSource source).tokens 64 = .ok ts ∧
      PushMarker.Inert ts := ⟨_, rfl, by decide⟩
  obtain ⟨steps, report', hrun', hstack, -, hfault', -⟩ :=
    runProgram_wrapped {} source _ 9 report (by decide) (by decide)
      (fun us hus => Except.ok.inj (hts.symm.trans hus) ▸ hinert) hrun (by simp [hfault])
  exact ⟨report, steps, report', hrun, hrun', hstack, hfault, by rw [hfault', hfault]; rfl⟩

end BlueNexus
