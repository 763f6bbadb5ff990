import BlueNexus.Proofs.CallLog
import BlueNexus.Proofs.HostEffects

/-!
# The completion notice

A run that ends well says so if it has printed no piece of text. A piece may be empty, and then the
run has printed something and written nothing: neither is there the notice, nor is there any text
(`completion_notice_unless_piece`). The only empty pieces are the prints of empty sequences
(`Machine.Steps.printsEmpty`).
-/

namespace BlueNexus

/-- The pieces of text among the calls. -/
def Call.pieces (calls : List Call) : List Text := calls.filterMap Call.text?

/-- The next step prints the whole of an empty sequence. -/
def Machine.PrintsEmpty (m : Machine) : Prop :=
  ∃ depth o o' x ts rest,
    m.tasks = .code depth (⟨.glyph .printNumber, o⟩ :: ⟨.variable x, o'⟩ :: ts) :: rest ∧
      m.state.variables.get? x = some (.sequence [])

/-- Whether the next step prints the whole of an empty sequence. -/
def Machine.printsEmpty (m : Machine) : Bool :=
  match m.tasks with
  | .code _ (⟨.glyph .printNumber, _⟩ :: ⟨.variable x, _⟩ :: _) :: _ =>
    m.state.variables.get? x = some (.sequence [])
  | _ => false

theorem Machine.printsEmpty_iff {m : Machine} : m.printsEmpty = true ↔ m.PrintsEmpty := by
  unfold printsEmpty
  constructor
  · intro h
    split at h
    · next depth o x o' ts rest htasks =>
      exact ⟨depth, o, o', x, ts, rest, htasks, of_decide_eq_true h⟩
    · cases h
  · rintro ⟨depth, o, o', x, ts, rest, htasks, hx⟩
    rw [htasks]
    exact decide_eq_true hx

variable {limit : Nat} {s s' : State} {tasks : List Task} {m : Machine} {ts us : List Token}

@[simp] theorem Numeral.decimal_ne_nil (n : Int64) : decimal n ≠ [] := by
  unfold decimal
  split
  · exact List.cons_ne_nil _ _
  · exact Nat.toDigits_ne_nil

private theorem Value.eq_of_toText_eq_nil {v : Value} (h : v.toText = []) : v = .sequence [] := by
  cases v with
  | scalar n => exact absurd h (Numeral.decimal_ne_nil n)
  | sequence items => rw [List.map_eq_nil_iff.1 h]

private theorem Glyph.Prints.eq_of_empty {g : Glyph} (h : g.Prints ts s (some []) us s') :
    g = .printNumber ∧ ∃ x o, ts = ⟨.variable x, o⟩ :: us ∧
      s.variables.get? x = some (.sequence []) := by
  generalize ht : some ([] : Text) = text at h
  cases h with
  | newline => cases ht
  | topNumber =>
    obtain ⟨n, -, hn⟩ := Option.map_eq_some_iff.1 ht.symm
    exact absurd hn (Numeral.decimal_ne_nil n)
  | topChar | front =>
    obtain ⟨n, -, hn⟩ := Option.map_eq_some_iff.1 ht.symm
    cases hn
  | @whole x s v o ts h =>
    have hv := Value.eq_of_toText_eq_nil (Option.some.inj ht).symm
    exact ⟨rfl, x, o, rfl, hv ▸ h⟩

theorem Machine.Steps.printsEmpty (h : Steps limit tasks s (.tell (.output []) m)) :
    PrintsEmpty ⟨tasks, s⟩ := by
  generalize hmove : Move.tell (.output []) m = move at h
  have heffect : move.effect? = some .print := hmove ▸ rfl
  cases h with
  | print depth o rest h =>
    cases hmove
    obtain ⟨rfl, x, o', rfl, hx⟩ := h.eq_of_empty
    exact ⟨depth, o, o', x, _, rest, rfl, hx⟩
  | snapshot _ _ _ h =>
    cases hmove
    cases h.silent.1
  | block _ _ _ _ _ h | times _ _ _ h => cases h.effect?_eq.symm.trans heffect
  | once _ _ _ _ h | loop _ _ h => cases h.effect?_eq.symm.trans heffect
  | _ => cases hmove

namespace Session

variable {σ : Type} [Host σ] {a z : Session σ}

theorem Next.printsEmpty (h : Next limit a z) (hz : [] ∈ Call.pieces z.calls) :
    [] ∈ Call.pieces a.calls ∨ a.machine.PrintsEmpty := by
  have hsteps := Machine.steps_step limit a.machine
  obtain ⟨_, hm, hgoes⟩ := h.goes
  rw [hm] at hsteps
  cases hgoes with
  | silent | ask => exact .inl hz
  | tell n m =>
    cases n with
    | output t =>
      rcases List.mem_cons.1 hz with rfl | hz
      · exact .inr hsteps.printsEmpty
      · exact .inl hz
    | stack | «variable» | fault => exact .inl hz

/-- A run has no empty piece unless it has come to the print of an empty sequence. -/
theorem Reaches.not_mem_pieces (hr : a.Reaches limit z) (ha : [] ∉ Call.pieces a.calls)
    (hempty : ∀ y, a.Reaches limit y → ¬y.machine.PrintsEmpty) : [] ∉ Call.pieces z.calls := by
  induction hr with
  | refl => exact ha
  | tail hr hn ih => exact fun hz => (hn.printsEmpty hz).elim ih (hempty _ hr)

private theorem Reaches.printed_eq_nil_iff {ts : List Token} {host : σ}
    (hr : (start ts host).Reaches limit z) :
    z.machine.state.printed = [] ↔ Call.pieces z.calls = [] := by
  have houtput := ((agrees_start ts host).reaches hr).output
  rw [State.output, List.filterMap_reverse, List.reverse_inj] at houtput
  rw [houtput, Call.pieces]

end Session

/-- A completed run ends with the notice exactly if it has printed no piece, so it leaves no text at
all where it has printed pieces and all are empty. Without a print of an empty sequence there is no
such piece: there is some text, and the notice exactly if the program has written nothing. -/
theorem completion_notice_unless_piece {σ : Type} [Host σ] {settings : Settings} {source : Text}
    {host : σ} {steps : Nat} {report : Report σ}
    (hr : runProgram settings source host steps = some report) (hfault : report.fault = none)
    (hnotice : settings.completionNotice = true) :
    ∃ ts z, programTokens settings.limit source = .ok ts ∧
      (Session.start ts host).Ends settings.limit z none ∧
      report.calls = z.calls.reverse ++
        (if Call.pieces z.calls = [] then [.notice (.output completionNotice)] else []) ∧
      ((Call.pieces report.calls).flatten = [] ↔
        Call.pieces z.calls ≠ [] ∧ ∀ t ∈ Call.pieces z.calls, t = []) ∧
      ((∀ y, (Session.start ts host).Reaches settings.limit y → ¬y.machine.PrintsEmpty) →
        (Call.pieces report.calls).flatten ≠ [] ∧
        (report.calls = z.calls.reverse ++ [.notice (.output completionNotice)] ↔
          ∀ t ∈ Call.pieces z.calls, t = [])) := by
  rcases exists_runProgram_iff.1 ⟨steps, hr⟩ with ⟨e, -, rfl⟩ | ⟨ts, z, fault, hts, hz, rfl⟩
  · cases hfault
  · obtain rfl : fault = none := hfault
    have hcalls : (z.report settings none).calls = z.calls.reverse ++
        (if Call.pieces z.calls = [] then [.notice (.output completionNotice)] else []) := by
      rw [Session.report_calls, Session.closing?]
      simp only [hnotice, true_and, hz.1.printed_eq_nil_iff]
      split <;> rfl
    have htext : (Call.pieces (z.report settings none).calls).flatten = [] ↔
        Call.pieces z.calls ≠ [] ∧ ∀ t ∈ Call.pieces z.calls, t = [] := by
      have hsome : completionNotice ≠ [] := by decide
      rw [hcalls, Call.pieces, List.filterMap_append, List.filterMap_reverse, ← Call.pieces,
        List.flatten_eq_nil_iff]
      by_cases h : Call.pieces z.calls = []
      · simp [h, Call.text?, hsome]
      · simp [h]
    refine ⟨ts, z, hts, hz, hcalls, htext, fun hempty => ⟨?_, ?_⟩⟩
    all_goals
      have hmem : [] ∉ Call.pieces z.calls := hz.1.not_mem_pieces List.not_mem_nil hempty
    · rw [Ne, htext]
      rintro ⟨hne, hall⟩
      obtain ⟨t, ht⟩ := List.exists_mem_of_ne_nil _ hne
      exact hmem (hall t ht ▸ ht)
    · rw [hcalls, List.append_cancel_left_eq]
      constructor
      · intro h t ht
        split at h
        · next hnil => simp [hnil] at ht
        · cases h
      · intro hall
        have hnil : Call.pieces z.calls = [] :=
          List.eq_nil_iff_forall_not_mem.2 fun t ht => hmem (hall t ht ▸ ht)
        rw [if_pos hnil]

/-- A program that prints a sequence, which is not empty, and one that prints nothing. -/
theorem completion_notice_after_no_print :
    let host : Recorder := { queue := [] }
    let shown : Text := ['>', 's', '<', '"', 'h', 'i', '"', '<', '#', 's']
    let silent : Text := ['1', ' ', '2', '+']
    (∃ ts z report, programTokens 64 shown = .ok ts ∧ (Session.start ts host).Ends 64 z none ∧
      (∀ y, (Session.start ts host).Reaches 64 y → ¬y.machine.PrintsEmpty) ∧
      runProgram {} shown host 9 = some report ∧ report.fault = none ∧
      Call.pieces z.calls = [['h', 'i']] ∧ (Call.pieces report.calls).flatten ≠ [] ∧
      report.calls ≠ z.calls.reverse ++ [.notice (.output completionNotice)]) ∧
    ∃ ts z report, programTokens 64 silent = .ok ts ∧ (Session.start ts host).Ends 64 z none ∧
      (∀ y, (Session.start ts host).Reaches 64 y → ¬y.machine.PrintsEmpty) ∧
      runProgram {} silent host 9 = some report ∧ report.fault = none ∧
      z.machine.state.stack.toList = [3] ∧ (Call.pieces report.calls).flatten ≠ [] ∧
      report.calls = z.calls.reverse ++ [.notice (.output completionNotice)] := by
  intro host shown silent
  -- The end of a run is the one that the theorem speaks of, and its sessions are all on its trail.
  have applied : ∀ {source : Text} {ts : List Token} {z : Session Recorder} {report},
      programTokens 64 source = .ok ts → (Session.start ts host).run 64 9 = some (z, none) →
      (((Session.start ts host).trail 64 9).all fun y => !y.machine.printsEmpty) = true →
      runProgram {} source host 9 = some report → report.fault = none →
      (Session.start ts host).Ends 64 z none ∧
      (∀ y, (Session.start ts host).Reaches 64 y → ¬y.machine.PrintsEmpty) ∧
      (Call.pieces report.calls).flatten ≠ [] ∧
      (report.calls = z.calls.reverse ++ [.notice (.output completionNotice)] ↔
        ∀ t ∈ Call.pieces z.calls, t = []) := by
    intro source ts z report hts hrun htrail hr hfault
    have hempty : ∀ y, (Session.start ts host).Reaches 64 y → ¬y.machine.PrintsEmpty := by
      intro y hy
      have hnot := List.all_eq_true.1 htrail y (hy.mem_trail hrun)
      rwa [Bool.not_eq_true', ← Bool.not_eq_true, Machine.printsEmpty_iff] at hnot
    obtain ⟨_, z', hts', hz', -, -, hquiet⟩ := completion_notice_unless_piece hr hfault rfl
    cases hts.symm.trans hts'
    obtain ⟨_, hrun'⟩ := Session.exists_run_of_ends hz'
    cases Session.run_unique hrun hrun'
    exact ⟨hz', hempty, hquiet hempty⟩
  constructor
  · obtain ⟨ts, z, report, hts, hrun, htrail, hr, hfault, hpieces⟩ :
        ∃ ts z report, programTokens 64 shown = .ok ts ∧
          (Session.start ts host).run 64 9 = some (z, none) ∧
          (((Session.start ts host).trail 64 9).all fun y => !y.machine.printsEmpty) = true ∧
          runProgram {} shown host 9 = some report ∧ report.fault = none ∧
          Call.pieces z.calls = [['h', 'i']] :=
      ⟨_, _, _, rfl, rfl, rfl, rfl, rfl, rfl⟩
    obtain ⟨hz, hempty, htext, hnotice⟩ := applied hts hrun htrail hr hfault
    refine ⟨ts, z, report, hts, hz, hempty, hr, hfault, hpieces, htext, ?_⟩
    simp [hnotice, hpieces]
  · obtain ⟨ts, z, report, hts, hrun, htrail, hr, hfault, hpieces, hstack⟩ :
        ∃ ts z report, programTokens 64 silent = .ok ts ∧
          (Session.start ts host).run 64 9 = some (z, none) ∧
          (((Session.start ts host).trail 64 9).all fun y => !y.machine.printsEmpty) = true ∧
          runProgram {} silent host 9 = some report ∧ report.fault = none ∧
          Call.pieces z.calls = [] ∧ z.machine.state.stack.toList = [3] :=
      ⟨_, _, _, rfl, rfl, rfl, rfl, rfl, rfl, rfl⟩
    obtain ⟨hz, hempty, htext, hnotice⟩ := applied hts hrun htrail hr hfault
    refine ⟨ts, z, report, hts, hz, hempty, hr, hfault, hstack, htext, ?_⟩
    simp [hnotice, hpieces]

/-- The print of an empty sequence alone is enough that a completed run leaves no text. -/
theorem empty_piece_leaves_no_text :
    ¬∀ (settings : Settings) (source : Text) (host : Recorder) (steps : Nat) (report),
      settings.completionNotice = true → runProgram settings source host steps = some report →
      report.fault = none → (Call.pieces report.calls).flatten ≠ [] := by
  intro h
  let source : Text := ['>', 's', '<', '"', '"', '<', '#', 's']
  obtain ⟨report, hr, hfault, htext⟩ : ∃ report,
      runProgram {} source ({ queue := [] } : Recorder) 9 = some report ∧ report.fault = none ∧
        (Call.pieces report.calls).flatten = [] := ⟨_, rfl, rfl, rfl⟩
  exact h {} source _ 9 report rfl hr hfault htext

end BlueNexus
