import BlueNexus.Command
import BlueNexus.Proofs.QueuedReplies

/-!
# Programs at the terminal

The terminal answers like a recorder whose queue goes on with the lines of standard input. So the
command does what is read off a run with that recorder: standard output is the output of the run,
with its last line ended, and standard error shows the other calls in their order
(`runAtTerminal_eq_recorded`).
-/

namespace BlueNexus

open Call Recorder

private theorem Text.trim_append_newline (t : Text) : trim (t ++ ['\n']) = trim t := by
  have hnewline : isBlank '\n' = true := by decide
  rw [trim, trim, List.dropWhile_append]
  split
  · next h => simp [List.isEmpty_iff.1 h, hnewline]
  · simp [hnewline]

private theorem Reply.scalar_provided_congr {t u : Text} (h : Text.trim t = Text.trim u) :
    (provided t).scalar = (provided u).scalar := by
  simp only [scalar, h]

theorem Recorder.scalar_replyAt_congr {p q : List Text} (h : p.map Text.trim = q.map Text.trim)
    (i : Nat) : (replyAt p i).scalar = (replyAt q i).scalar := by
  have hi : p[i]?.map Text.trim = q[i]?.map Text.trim := by
    rw [← List.getElem?_map, h, List.getElem?_map]
  unfold replyAt
  cases hp : p[i]? with
  | none =>
    rw [hp, Option.map_none, eq_comm, Option.map_eq_none_iff] at hi
    rw [hi]
  | some t =>
    rw [hp, Option.map_some, eq_comm, Option.map_eq_some_iff] at hi
    obtain ⟨u, hq, hu⟩ := hi
    rw [hq]
    exact Reply.scalar_provided_congr hu.symm

/-- The lines of a notice. -/
def Notice.lines : Notice → List Text
  | .output _ => []
  | .stack values =>
    ("--- stack (".toList ++ Nat.toDigits 10 values.length ++ " items, top first) ---".toList) ::
      values.reverse.map fun n => "  ".toList ++ Numeral.decimal n
  | .variable x rendered =>
    ["--- variable ".toList ++ [x.letter] ++ " ---".toList, "  ".toList ++ rendered]
  | .fault message _ => [message]

/-- What a call shows apart from output, if so many replies are at hand without asking. -/
def Call.shown (queued : Nat) : Call → Text
  | .notice n => n.lines.flatMap (· ++ ['\n'])
  | .input _ => if queued = 0 then "Enter input: ".toList else []

/-- How many replies are at hand after a call. -/
def Call.left (queued : Nat) : Call → Nat
  | .notice _ => queued
  | .input _ => queued - 1

/-- What the calls of a run show apart from output, one after the other. -/
def Call.listShown : (queued : Nat) → List Call → Text
  | _, [] => []
  | queued, c :: calls => c.shown queued ++ listShown (c.left queued) calls

private theorem Call.listShown_eq_of_alike {a b : List Call} (h : List.Forall₂ Alike a b)
    (queued : Nat) : listShown queued b = listShown queued a := by
  induction h generalizing queued with
  | nil => rfl
  | cons h _ ih =>
    cases h with
    | notice n => simp only [listShown, ih]
    | input _ => simp only [listShown, shown, left, ih]

private theorem Call.texts_eq_of_alike {a b : List Call} (h : List.Forall₂ Alike a b) :
    b.filterMap text? = a.filterMap text? := by
  induction h with
  | nil => rfl
  | cons h _ ih =>
    cases h with
    | notice n => simp only [List.filterMap_cons, ih]
    | input _ => exact ih

namespace Terminal

/-- The replies to come. -/
def pending (t : Terminal) : List Text := t.queue ++ lines t.stdin

variable {t : Terminal} {ls : List Text} {stdin : Text}

theorem reply_eq (t : Terminal) : Host.reply t = replyAt t.pending 0 := by
  obtain ⟨queue, stdin, stdout, stderr, lineOpen⟩ := t
  cases queue with
  | cons r queue => rfl
  | nil =>
    cases stdin with
    | nil => rfl
    | cons c stdin =>
      have hlines := lines_eq_cons (List.cons_ne_nil c stdin)
      have hline : (takeLine (c :: stdin)).1 ≠ [] := by
        by_cases hc : c = '\n' <;> simp [takeLine, hc]
      cases hl : (takeLine (c :: stdin)).1 with
      | nil => exact absurd hl hline
      | cons d line => simp [Host.reply, pending, replyAt, hlines, hl]

private theorem pending_after_notice (n : Notice) (t : Terminal) :
    (Host.after (.notice n) t).pending = t.pending := by
  cases n <;> rfl

private theorem pending_after_input (r : Reply) (t : Terminal) :
    (Host.after (.input r) t).pending = t.pending.tail := by
  obtain ⟨queue, stdin, stdout, stderr, lineOpen⟩ := t
  cases queue with
  | cons r queue => rfl
  | nil =>
    cases stdin with
    | nil => rfl
    | cons c stdin =>
      change lines (takeLine (c :: stdin)).2 = (lines (c :: stdin)).tail
      rw [lines_eq_cons (List.cons_ne_nil c stdin), List.tail_cons]

/-- The recorder has the replies of the terminal in its queue, up to the blanks around them. -/
def Matches (a : Recorder) (t : Terminal) : Prop :=
  a.queue.map Text.trim = t.pending.map Text.trim

theorem mirrors_matches : Host.Mirrors fun _ => Matches where
  notice n h := by
    rw [Matches, pending_after_notice]
    exact h
  scalar h := by
    rw [reply_eq, Recorder.reply_eq]
    exact scalar_replyAt_congr h.symm 0
  input h := by
    rw [Matches, pending_after_input, List.map_tail, ← h, ← List.map_tail]
    rfl

@[simp] theorem stdoutText_after (c : Call) (t : Terminal) :
    (Host.after c t).stdoutText = t.stdoutText ++ (text? c).getD [] := by
  rcases c with (text | values | ⟨x, rendered⟩ | ⟨message, offset⟩) | r
  · simp [Host.after, stdoutText, text?]
  · simp [Host.after, stdoutText, text?]
  · simp [Host.after, stdoutText, text?]
  · simp [Host.after, stdoutText, text?]
  · obtain ⟨queue, stdin, stdout, stderr, lineOpen⟩ := t
    cases queue <;> simp [Host.after, stdoutText, text?]

private theorem noticeText_eq_lines (n : Notice) :
    noticeText n = n.lines.flatMap (· ++ ['\n']) := by
  unfold noticeText Notice.lines
  cases n with
  | output text => rfl
  | stack values =>
    have head : " items, top first) ---\n".toList = " items, top first) ---".toList ++ ['\n'] := rfl
    dsimp only
    rw [head, List.flatMap_cons, List.flatMap_map, ← List.append_assoc]
    rfl
  | «variable» x rendered =>
    have head : " ---\n  ".toList = " ---".toList ++ '\n' :: "  ".toList := rfl
    dsimp only
    rw [head, List.flatMap_cons, List.flatMap_cons, List.flatMap_nil, List.append_nil]
    simp only [List.append_assoc, List.cons_append, List.nil_append]
  | fault message offset => exact (List.append_nil _).symm

private theorem stderrText_after (c : Call) (t : Terminal) :
    (Host.after c t).stderrText = t.stderrText ++ c.shown t.queue.length := by
  obtain ⟨queue, stdin, stdout, stderr, lineOpen⟩ := t
  have told : ∀ n : Notice, (noticeText n :: stderr).reverse.flatten =
      stderr.reverse.flatten ++ n.lines.flatMap (· ++ ['\n']) := fun n => by
    rw [← noticeText_eq_lines, List.reverse_cons, List.flatten_concat]
  rcases c with (text | values | ⟨x, rendered⟩ | ⟨message, offset⟩) | r
  · exact (List.append_nil _).symm
  · exact told _
  · exact told _
  · exact told _
  · cases queue with
    | cons text queue => exact (List.append_nil _).symm
    | nil =>
      change (prompt :: stderr).reverse.flatten = _
      rw [List.reverse_cons, List.flatten_concat]
      rfl

private theorem length_queue_after (c : Call) (t : Terminal) :
    (Host.after c t).queue.length = c.left t.queue.length := by
  obtain ⟨queue, stdin, stdout, stderr, lineOpen⟩ := t
  rcases c with n | r
  · cases n <;> rfl
  · cases queue <;> rfl

/-- The terminal knows whether its last line lacks an end. -/
def KnowsLine (t : Terminal) : Prop := t.lineOpen = openAfter t.stdoutText false

private theorem openAfter_append (u v : Text) (b : Bool) :
    openAfter (u ++ v) b = openAfter v (openAfter u b) := by
  unfold openAfter
  rw [List.getLast?_append]
  cases v.getLast? <;> rfl

theorem KnowsLine.after (h : t.KnowsLine) (c : Call) : (Host.after c t : Terminal).KnowsLine := by
  rw [KnowsLine, stdoutText_after, openAfter_append, ← h]
  obtain ⟨queue, stdin, stdout, stderr, lineOpen⟩ := t
  rcases c with (text | values | ⟨x, rendered⟩ | ⟨message, offset⟩) | r
  · rfl
  · rfl
  · rfl
  · rfl
  · cases queue <;> rfl

private theorem stdoutText_foldl (calls : List Call) (t : Terminal) :
    (calls.foldl (fun t c => Host.after c t) t).stdoutText =
      t.stdoutText ++ (calls.filterMap text?).flatten := by
  induction calls generalizing t with
  | nil => simp
  | cons c calls ih =>
    rw [List.foldl_cons, ih, stdoutText_after]
    cases hc : text? c <;> simp [hc]

private theorem stderrText_foldl (calls : List Call) (t : Terminal) :
    (calls.foldl (fun t c => Host.after c t) t).stderrText =
      t.stderrText ++ listShown t.queue.length calls := by
  induction calls generalizing t with
  | nil => simp [listShown]
  | cons c calls ih =>
    rw [List.foldl_cons, ih, stderrText_after, length_queue_after, List.append_assoc, listShown]

theorem KnowsLine.foldl (h : t.KnowsLine) (calls : List Call) :
    (calls.foldl (fun t c => Host.after c t) t).KnowsLine := by
  induction calls generalizing t with
  | nil => exact h
  | cons c calls ih => exact ih (h.after c)

/-- The text with its last line ended, if it has one. -/
def endLine (t : Text) : Text := if t = [] ∨ t.getLast? = some '\n' then t else t ++ ['\n']

private theorem stdoutText_closeLine (h : t.KnowsLine) :
    t.closeLine.stdoutText = endLine t.stdoutText := by
  rw [closeLine, h, endLine, openAfter]
  cases hlast : t.stdoutText.getLast? with
  | none => simp [List.getLast?_eq_none_iff.1 hlast]
  | some c =>
    have hne : t.stdoutText ≠ [] := by
      intro hnil
      simp [hnil] at hlast
    by_cases hc : c = '\n'
    · simp [hc]
    · have hopen : ¬(t.stdoutText = [] ∨ some c = some '\n') := by simp [hne, hc]
      rw [if_pos (by simpa using hc), if_neg hopen]
      simp [stdoutText]

private theorem stderrText_closeLine (t : Terminal) : t.closeLine.stderrText = t.stderrText := by
  unfold closeLine
  split <;> rfl

/-- These are the lines of the text, each with or without its end. -/
def AreLines (ls : List Text) (t : Text) : Prop :=
  List.Forall₂ (fun l line => line = l ∨ line = l ++ ['\n']) ls (lines t)

private theorem AreLines.matches (h : AreLines ls stdin) (inputs : List Text) :
    Matches { queue := inputs ++ ls } { queue := inputs, stdin } := by
  have htrim : ls.map Text.trim = (lines stdin).map Text.trim := by
    unfold AreLines at h
    generalize lines stdin = lines at h
    induction h with
    | nil => rfl
    | cons h _ ih =>
      rcases h with rfl | rfl
      · simp only [List.map_cons, ih]
      · simp only [List.map_cons, ih, Text.trim_append_newline]
  simp only [Matches, pending, List.map_append, htrim]

end Terminal

private theorem Recorder.heard_foldl (calls : List Call) (a : Recorder) :
    (calls.foldl (fun h c => Host.after c h) a).heard = calls.reverse ++ a.heard := by
  induction calls generalizing a with
  | nil => rfl
  | cons c calls ih =>
    rw [List.foldl_cons, ih, List.reverse_cons, List.append_assoc]
    cases c <;> rfl

open Terminal Command

/-- What the command does, read off a run with a recorder that has `queued` inputs before the lines
of standard input. -/
def Command.Response.ofRecorded (queued : Nat) (report : Report Recorder) : Response :=
  .done (if report.fault.isSome then 2 else 0) (endLine report.host.outputText)
    (listShown queued report.calls)

/-- The reports of two runs with the same inputs, one of them at the terminal, give one response. -/
theorem Report.Mirrors.ofRecorded {settings : Settings} {source stdin : Text}
    {inputs ls : List Text} {steps : Nat} {report : Report Recorder} {report' : Report Terminal}
    (h : report.Mirrors (fun _ => Matches) report')
    (hrun : runProgram settings source { queue := inputs ++ ls } steps = some report)
    (hrun' : runProgram settings source { queue := inputs, stdin } steps = some report') :
    Response.done (exitCode report'.fault) report'.host.closeLine.stdoutText
      report'.host.closeLine.stderrText = .ofRecorded inputs.length report := by
  have hknows : KnowsLine { queue := inputs, stdin } := rfl
  have houtput : report.host.outputText = (report.calls.filterMap text?).flatten := by
    rw [outputText, (answers_of_runProgram hrun).1, heard_foldl, List.append_nil,
      List.reverse_reverse]
  have hstdout : report'.host.closeLine.stdoutText = endLine report.host.outputText := by
    rw [(answers_of_runProgram hrun').1, stdoutText_closeLine (hknows.foldl _), stdoutText_foldl,
      texts_eq_of_alike h.calls, houtput]
    rfl
  have hstderr : report'.host.closeLine.stderrText = listShown inputs.length report.calls := by
    rw [(answers_of_runProgram hrun').1, stderrText_closeLine, stderrText_foldl,
      listShown_eq_of_alike h.calls]
    rfl
  rw [hstdout, hstderr, h.fault]
  rfl

/-- The command does at the terminal what is read off the run with a recorder that is given the
inputs and the lines of standard input, and ends if that run does. -/
theorem runAtTerminal_eq_recorded (inputs ls : List Text) (stdin : Text) (hls : AreLines ls stdin) :
    (∀ settings source steps, runAtTerminal settings source inputs stdin steps =
      (runProgram settings source ({ queue := inputs ++ ls } : Recorder) steps).map
        (Response.ofRecorded inputs.length)) ∧
    ∀ arguments files program path quiet settings source steps,
      Request.ofArguments? arguments = some (.run program path inputs quiet) →
      load files program path = .ok (settings, source) →
        respond arguments files stdin steps =
          (runProgram (if quiet then settings.withCompletionNotice false else settings) source
            ({ queue := inputs ++ ls } : Recorder) steps).map
              (Response.ofRecorded inputs.length) := by
  have hmatches := hls.matches inputs
  have hterminal : ∀ settings source steps, runAtTerminal settings source inputs stdin steps =
      (runProgram settings source ({ queue := inputs ++ ls } : Recorder) steps).map
        (Response.ofRecorded inputs.length) := by
    intro settings source steps
    rw [runAtTerminal]
    cases hrun : runProgram settings source ({ queue := inputs ++ ls } : Recorder) steps with
    | some report =>
      obtain ⟨report', hrun', hsame⟩ := runProgram_mirrored mirrors_matches hrun hmatches
      rw [hrun']
      exact congrArg some (hsame.ofRecorded hrun hrun')
    | none =>
      cases hrun' : runProgram settings source ({ queue := inputs, stdin } : Terminal) steps with
      | none => rfl
      | some report' =>
        obtain ⟨report, hended, -⟩ := runProgram_mirrored mirrors_matches.symm hrun' hmatches
        cases hrun.symm.trans hended
  refine ⟨hterminal, ?_⟩
  intro arguments files program path quiet settings source steps hrequest hload
  rw [respond, hrequest]
  simp only [hload, hterminal]

theorem runAtTerminal_eq_recorded_on_fault :
    let source := ['▲', '&', '▲', '&', '#', '_', 's', 't', 'a', 'c', 'k', '#', 'z']
    let arguments := ["run".toList, "-e".toList, source, "--input".toList, ['3']]
    let stdin := ['4', '\n', '5']
    let response := Response.done 2 "4\n".toList
      ("Enter input: --- stack (2 items, top first) ---\n  4\n  3\n".toList ++
        "[BN-01] Undefined Variable @ char 12: z\n".toList)
    AreLines [['4'], ['5']] stdin ∧
      runAtTerminal {} source [['3']] stdin 9 = some response ∧
      respond arguments (fun _ => .error .missing) stdin 9 = some response := by
  let calls : List Call := [.notice (.stack [3, 4]), .notice (.output ['4']),
    .input (.provided ['4']), .input (.provided ['3'])]
  let last : Session Recorder :=
    ⟨⟨[], { stack := ⟨[4, 3]⟩, printed := [['4']] }⟩, ⟨[['5']], calls⟩, calls⟩
  let report := last.report {} (some (.undefinedVariable 12 ⟨'z', rfl⟩))
  have hrun : runProgram {} ['▲', '&', '▲', '&', '#', '_', 's', 't', 'a', 'c', 'k', '#', 'z']
      ({ queue := [['3']] ++ [['4'], ['5']] } : Recorder) 9 = some report := rfl
  intro source arguments stdin response
  have hresponse : Response.ofRecorded 1 report = response := rfl
  have hlines : AreLines [['4'], ['5']] stdin := .cons (.inr rfl) (.cons (.inl rfl) .nil)
  obtain ⟨hterminal, hcommand⟩ := runAtTerminal_eq_recorded [['3']] _ stdin hlines
  refine ⟨hlines, ?_, ?_⟩
  · rw [hterminal, hrun, ← hresponse]
    rfl
  · rw [hcommand arguments _ (.inline source) none false {} source 9 rfl rfl]
    rw [if_neg Bool.false_ne_true, hrun, ← hresponse]
    rfl

end BlueNexus
