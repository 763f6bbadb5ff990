import BlueNexus.Host.Recorder
import BlueNexus.Proofs.NestingRoom
import BlueNexus.Proofs.ShiftedRuns
import BlueNexus.Settings.Reader

/-!
# What the nesting limit decides

A limit decides only whether a run is cut off. Where the smaller of two limits does not cut a run
off, the larger one gives the same run, step by step, and a limit as large as the text never cuts
it off (`limit_only_cuts_off`).
-/

namespace BlueNexus

namespace Nesting

private theorem Extent.later_eq_tooDeep {e : Extent} {n : Nat} (h : e.later = .tooDeep n) :
    ∃ m, e = .tooDeep m ∧ n = m + 1 := by
  cases e with
  | closed m => cases h
  | unclosed => cases h
  | tooDeep m =>
    cases h
    exact ⟨m, rfl, rfl⟩

/-- Every opening takes a character, so a short text is not too deep. -/
theorem le_of_extent_tooDeep {p : Pairing} {limit inner n : Nat} {t : Text}
    (h : extent p limit inner t = .tooDeep n) : limit ≤ inner + t.length := by
  fun_induction extent p limit inner t generalizing n with
  | case1 | case4 => cases h
  | case2 inner c r ho hl =>
    rw [List.length_cons]
    omega
  | case3 _ _ _ _ _ ih | case5 _ _ _ ih | case6 _ _ _ _ _ ih =>
    obtain ⟨m, hm, -⟩ := Extent.later_eq_tooDeep h
    have hle := ih hm
    rw [List.length_cons]
    omega

end Nesting

/-- A flaw of nesting takes more characters than the limit. -/
theorem Form.Reads.uncut {limit offset : Nat} {breaks : List Nat} {c : Char} {r : Text} {e : Fault}
    (h : Reads limit breaks offset c r (.error e)) (hr : r.length < limit) : e.Uncut := by
  intro o l he
  subst he
  cases h with
  | deepBlock x h =>
    have hle := Nesting.le_of_extent_tooDeep h
    simp only [List.length_cons] at hr
    omega
  | deepConditional hk hp h =>
    have hle := Nesting.le_of_extent_tooDeep h
    simp only [List.length_cons, List.length_append] at hr
    omega

namespace Fragment

variable {limit : Nat} {f : Fragment}

theorem uncut_of_length_le (h : f.text.length ≤ limit) : f.Uncut limit := by
  intro e he
  obtain ⟨k, c, r, hs, hflaw⟩ := exists_flaw he
  have hle := hs.length_le
  simp only [List.length_cons] at hle
  exact hflaw.uncut (by omega)

/-- What a token carries is shorter than the text it was read from, by at least the level that is
lost on entering it. -/
theorem fits_of_length_le {ts : List Token} {depth : Nat} (ht : f.tokens limit = .ok ts)
    (h : depth + f.text.length ≤ limit) :
    ∀ t ∈ ts, t.Fits limit (fun depth g => depth + g.text.length < limit) depth := by
  intro t htm
  have carried : ∀ g ∈ t.form.fragments, g.text.length < f.text.length := by
    intro g hg
    obtain ⟨-, -, -, hlt⟩ := (scan_of_tokens ht).carried htm hg
    exact hlt
  constructor
  · intro g hg
    have hlt := carried g hg
    exact uncut_of_length_le (by omega)
  · intro g hg
    have hlt := carried g (t.form.code_subset hg)
    omega

end Fragment

/-- Fragments have room where their depth and their length together stay below the limit. -/
theorem Nesting.room_of_length (limit : Nat) :
    Room limit fun depth f => depth + f.text.length < limit where
  lt_limit h := by omega
  uncut h := Fragment.uncut_of_length_le (by omega)
  nested h ht := Fragment.fits_of_length_le ht (by omega)

@[simp] theorem Fault.shift_zero : Fault.shift 0 = id := by
  funext e
  cases e <;> rfl

@[simp] theorem Fragment.shift_zero (f : Fragment) : f.shift 0 = f := by simp [shift]

@[simp] theorem Token.shift_zero : Token.shift 0 = id := by
  funext ⟨form, o⟩
  cases form <;> simp [shift, Form.shift]

@[simp] theorem Machine.relocate_zero : Machine.relocate 0 0 = id := by
  have task : Task.relocate 0 0 = id := by
    funext t
    cases t <;> simp [Task.relocate]
  funext m
  simp [relocate, task]

variable {limit limit' : Nat}

theorem Fragment.Uncut.tokens_eq {f : Fragment} (h : f.Uncut limit) (hle : limit ≤ limit') :
    f.tokens limit' = f.tokens limit := by
  have hfits : Fits limit limit' (f.tokens limit) := fun o l ht => absurd rfl (h _ ht o l)
  have hshift := tokens_shift 0 hle hfits
  rw [shift_zero] at hshift
  rw [hshift]
  cases f.tokens limit with
  | ok ts => simp [shiftResult]
  | error e => simp [shiftResult]

theorem Machine.step_of_le (hle : limit ≤ limit') {m : Machine}
    (h : ∀ o l s, m.step limit ≠ .failed (.nestingTooDeep o l) s) :
    m.step limit' = m.step limit := by
  have hstep := step_relocate 0 0 (n := m) hle fun o l s hm => absurd hm (h o l s)
  rw [relocate_zero, Fault.shift_zero] at hstep
  rw [show m.step limit' = _ from hstep]
  cases m.step limit <;> rfl

namespace Session

variable {σ : Type} [Host σ] {s t : Session σ}

/-- No run from the session is cut off. -/
def Uncut (limit : Nat) (s : Session σ) : Prop :=
  ∀ z o l, ¬s.Ends limit z (some (.nestingTooDeep o l))

theorem Uncut.next (h : s.Uncut limit) (hn : Next limit s t) : t.Uncut limit :=
  fun z o l hz => h z o l (hz.head hn)

theorem Uncut.step_eq (h : s.Uncut limit) (hle : limit ≤ limit') :
    s.step limit' = s.step limit := by
  have hm : ∀ o l state, s.machine.step limit ≠ .failed (.nestingTooDeep o l) state := by
    intro o l state hm
    obtain rfl := Machine.eq_of_step_failed hm
    exact h s o l ⟨.refl, step_ended_iff.2 hm⟩
  rw [step, step, Machine.step_of_le hle hm]

private theorem Uncut.run_eq (h : s.Uncut limit) (hle : limit ≤ limit') (steps : Nat) :
    s.run limit' steps = s.run limit steps := by
  induction steps generalizing s with
  | zero => rfl
  | succ n ih =>
    rw [run, run, h.step_eq hle]
    cases hs : s.step limit with
    | ongoing t => exact ih (h.next hs)
    | ended t fault => rfl

theorem Uncut.reaches_iff (h : s.Uncut limit) (hle : limit ≤ limit') :
    s.Reaches limit' t ↔ s.Reaches limit t := by
  have after : ∀ {t : Session σ}, s.Reaches limit t → t.Uncut limit :=
    fun hr z o l hz => h z o l (hz.of_reaches hr)
  constructor
  · intro hr
    induction hr with
    | refl => exact .refl
    | tail _ hn ih => exact ih.tail (((after ih).step_eq hle).symm.trans hn)
  · intro hr
    induction hr with
    | refl => exact .refl
    | tail hr hn ih => exact ih.tail (((after hr).step_eq hle).trans hn)

end Session

variable {σ : Type} [Host σ] {settings settings' : Settings} {source : Text} {host : σ}

/-- The program is not cut off, neither where it is read nor in any run of it. -/
structure UncutProgram (limit : Nat) (source : Text) (host : σ) : Prop where
  read : (Fragment.ofSource source).Uncut limit
  run : ∀ ts, programTokens limit source = .ok ts → (Session.start ts host).Uncut limit

private theorem uncutProgram_of_reports
    (h : ∀ steps report, runProgram settings source host steps = some report →
      ∀ o l, report.fault ≠ some (.nestingTooDeep o l)) :
    UncutProgram settings.limit source host := by
  constructor
  · rintro e he o l rfl
    have hr : ∃ steps, runProgram settings source host steps =
        some ((Session.start [] host).report settings (some (.nestingTooDeep o l))) :=
      exists_runProgram_iff.2 <| .inl ⟨_, programTokens_eq_error_iff.2 he, rfl⟩
    obtain ⟨steps, hr⟩ := hr
    exact h steps _ hr o l rfl
  · intro ts hts z o l hz
    obtain ⟨steps, hr⟩ := exists_runProgram_iff.2 <| .inr ⟨ts, z, _, hts, hz, rfl⟩
    exact h steps _ hr o l rfl

theorem UncutProgram.programTokens_eq (h : UncutProgram limit source host)
    (hle : limit ≤ limit') : programTokens limit' source = programTokens limit source := by
  rw [programTokens, programTokens, h.read.tokens_eq hle]

private theorem UncutProgram.runProgram_eq (h : UncutProgram settings.limit source host)
    (hle : settings.limit ≤ settings'.limit)
    (hnotice : settings'.completionNotice = settings.completionNotice) (steps : Nat) :
    runProgram settings' source host steps = runProgram settings source host steps := by
  have hreport : ∀ (s : Session σ) fault, s.report settings' fault = s.report settings fault := by
    intro s fault
    simp [Session.report, Session.conclude, hnotice]
  rw [runProgram, runProgram, h.programTokens_eq hle]
  cases ht : programTokens settings.limit source with
  | error e => simp [hreport]
  | ok ts => simp [hreport, (h.run ts ht).run_eq hle]

/-- A conditional within a conditional. -/
def nestedTwice : Text := ['?', '[', '!', '?', ']', '{', '1', '=', '1', '}', '(', '?', '[', '!',
  '?', ']', '{', '1', '=', '1', '}', '(', '2', '#', ')', ')']

/-- A run that its limit does not cut off goes the same way under any larger limit. A limit of
zero is the same as one of one, and a limit as large as the text never cuts a run off. -/
theorem limit_only_cuts_off {σ : Type} [Host σ] (settings : Settings) (source : Text) (host : σ) :
    (∀ limit limit', limit ≤ limit' →
      (∀ steps report,
        runProgram { settings with maxNestingDepth := limit } source host steps = some report →
          ∀ o l, report.fault ≠ some (.nestingTooDeep o l)) →
      (∀ steps, runProgram { settings with maxNestingDepth := limit' } source host steps =
        runProgram { settings with maxNestingDepth := limit } source host steps) ∧
      programTokens (max 1 limit') source = programTokens (max 1 limit) source ∧
      ∀ ts t, programTokens (max 1 limit) source = .ok ts →
        ((Session.start ts host).Reaches (max 1 limit') t ↔
          (Session.start ts host).Reaches (max 1 limit) t)) ∧
    (∀ steps, runProgram { settings with maxNestingDepth := 0 } source host steps =
      runProgram { settings with maxNestingDepth := 1 } source host steps) ∧
    ∀ limit, (Fragment.ofSource source).text.length ≤ limit → ∀ steps report,
      runProgram { settings with maxNestingDepth := limit } source host steps = some report →
        ∀ o l, report.fault ≠ some (.nestingTooDeep o l) := by
  refine ⟨fun limit limit' hle h => ?_, fun steps => rfl, fun limit hlength steps report hr => ?_⟩
  · have huncut := uncutProgram_of_reports h
    have hle' : max 1 limit ≤ max 1 limit' := by omega
    refine ⟨huncut.runProgram_eq hle' rfl, huncut.programTokens_eq hle', fun ts t hts => ?_⟩
    exact (huncut.run ts hts).reaches_iff hle'
  · -- A token takes a character, so what it carries fits in with one level less.
    have hle : (Fragment.ofSource source).text.length ≤ max 1 limit := by omega
    have hroom : 0 + (Fragment.ofSource source).text.length ≤ max 1 limit := by omega
    have huncut := report_uncut (Nesting.room_of_length _) (Fragment.uncut_of_length_le hle)
      (fun ts hts => Fragment.fits_of_length_le hts hroom) hr
    exact fun o l hf => huncut _ hf o l rfl

theorem limit_only_cuts_off_at_two :
    ∃ report cut : Report Recorder,
      runProgram { maxNestingDepth := 2 } nestedTwice { queue := [] } 9 = some report ∧
      report.fault = none ∧
      runProgram { maxNestingDepth := 3 } nestedTwice { queue := [] } 9 = some report ∧
      runProgram { maxNestingDepth := 1 } nestedTwice { queue := [] } 9 = some cut ∧
      cut.fault = some (.nestingTooDeep 21 1) ∧
      Settings.ofText? ['m', 'a', 'x', '_', 'n', 'e', 's', 't', 'i', 'n', 'g', '_', 'd', 'e', 'p',
        't', 'h', '=', '0'] = some { maxNestingDepth := 0 } ∧
      runProgram { maxNestingDepth := 0 } nestedTwice { queue := [] } 9 = some cut ∧
      ∀ steps report', runProgram { maxNestingDepth := 26 } nestedTwice ({ queue := [] } : Recorder)
        steps = some report' → ∀ o l, report'.fault ≠ some (.nestingTooDeep o l) := by
  obtain ⟨report, hr, hf⟩ : ∃ report,
      runProgram { maxNestingDepth := 2 } nestedTwice ({ queue := [] } : Recorder) 9 =
        some report ∧ report.fault = none := ⟨_, rfl, rfl⟩
  obtain ⟨cut, hcut, hfault⟩ : ∃ cut,
      runProgram { maxNestingDepth := 1 } nestedTwice ({ queue := [] } : Recorder) 9 =
        some cut ∧ cut.fault = some (.nestingTooDeep 21 1) := ⟨_, rfl, rfl⟩
  obtain ⟨hlarger, hzero, hlength⟩ :=
    limit_only_cuts_off {} nestedTwice ({ queue := [] } : Recorder)
  have huncut : ∀ steps report', runProgram { maxNestingDepth := 2 } nestedTwice
      ({ queue := [] } : Recorder) steps = some report' →
        ∀ o l, report'.fault ≠ some (.nestingTooDeep o l) := by
    intro steps report' hr'
    cases runProgram_unique hr hr'
    simp [hf]
  obtain ⟨hsame, -⟩ := hlarger 2 3 (by decide) huncut
  exact ⟨report, cut, hr, hf, (hsame 9).trans hr, hcut, hfault, by decide,
    (hzero 9).trans hcut, hlength 26 (by decide)⟩

end BlueNexus
