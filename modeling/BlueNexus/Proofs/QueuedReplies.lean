import BlueNexus.Proofs.CallLog
import BlueNexus.Proofs.MirroredRuns

/-!
# Replies from a queue

A run takes the replies to its requests off the front of its recorder's queue, in order, and leaves
the rest to the next run. Two queues that come to the same integers as far as the requests of a run
go are the same to it (`run_determined_by_scalars`).
-/

namespace BlueNexus

open Call

/-- The text in a request that was met. -/
def Call.provided? : Call → Option Text
  | .input (.provided t) => some t
  | _ => none

/-- Each request among the calls has the reply that the host gives when its turn comes. -/
def Host.Answers {σ : Type} [Host σ] : σ → List Call → Prop
  | _, [] => True
  | a, c :: calls => (∀ r, c = .input r → r = Host.reply a) ∧ Host.Answers (Host.after c a) calls

section Answers

variable {σ : Type} [Host σ] {limit : Nat} {a host : σ} {s s' z : Session σ}

theorem Host.answers_concat (calls : List Call) (c : Call) :
    Host.Answers a (calls ++ [c]) ↔ Host.Answers a calls ∧
      ∀ r, c = .input r → r = Host.reply (calls.foldl (fun h c => Host.after c h) a) := by
  induction calls generalizing a with
  | nil => simp [Host.Answers]
  | cons d calls ih => simp only [List.cons_append, Host.Answers, ih, List.foldl_cons, and_assoc]

namespace Session

private theorem Agrees.answers_next (h : s.Agrees host) (ha : Host.Answers host s.calls.reverse)
    (hn : Next limit s s') : Host.Answers host s'.calls.reverse := by
  obtain ⟨_, -, hgoes⟩ := hn.goes
  cases hgoes with
  | silent m => exact ha
  | tell n m =>
    rw [calls_call, List.reverse_cons]
    exact (Host.answers_concat _ _).2 ⟨ha, by simp⟩
  | ask resume =>
    rw [calls_call, List.reverse_cons]
    refine (Host.answers_concat _ _).2 ⟨ha, fun r hr => ?_⟩
    cases hr
    rw [← h.heard]

private theorem Agrees.answers_reaches (h : s.Agrees host) (ha : Host.Answers host s.calls.reverse)
    (hr : s.Reaches limit z) : Host.Answers host z.calls.reverse := by
  induction hr with
  | refl => exact ha
  | tail hr hn ih => exact (h.reaches hr).answers_next ih hn

theorem answers_report (settings : Settings) (fault : Option Fault)
    (h : Host.Answers host s.calls.reverse) :
    Host.Answers host (s.report settings fault).calls := by
  have told : ∀ n, Host.Answers host (Call.notice n :: s.calls).reverse := fun n => by
    rw [List.reverse_cons]
    exact (Host.answers_concat _ _).2 ⟨h, by simp⟩
  cases fault with
  | some e => exact told _
  | none =>
    change Host.Answers host (s.conclude settings none).calls.reverse
    unfold conclude
    dsimp only
    split
    · exact told _
    · exact h

end Session

/-- The host of a report has heard its calls, and has answered the requests among them. -/
theorem answers_of_runProgram {settings : Settings} {source : Text} {steps : Nat}
    {report : Report σ} (hrun : runProgram settings source host steps = some report) :
    report.host = report.calls.foldl (fun h c => Host.after c h) host ∧
      Host.Answers host report.calls := by
  rcases exists_runProgram_iff.1 ⟨steps, hrun⟩ with ⟨e, -, rfl⟩ | ⟨ts, z, fault, -, hz, rfl⟩
  · exact ⟨((Session.agrees_start [] host).report settings (some e)).heard,
      Session.answers_report settings (some e) trivial⟩
  · have hstart := Session.agrees_start ts host
    exact ⟨((hstart.reaches hz.1).report settings fault).heard,
      Session.answers_report settings fault (hstart.answers_reaches trivial hz.1)⟩

end Answers

namespace Recorder

/-- The reply to the request that comes after `i` others. -/
def replyAt (queue : List Text) (i : Nat) : Reply := queue[i]?.elim .declined .provided

variable {a b : Recorder} {calls : List Call}

theorem reply_eq (a : Recorder) : Host.reply a = replyAt a.queue 0 := by
  obtain ⟨queue, heard⟩ := a
  cases queue <;> rfl

@[simp] theorem replyAt_tail (queue : List Text) (i : Nat) :
    replyAt queue.tail i = replyAt queue (i + 1) := by
  cases queue <;> rfl

@[simp] theorem queue_foldl (calls : List Call) (a : Recorder) :
    (calls.foldl (fun h c => Host.after c h) a).queue = a.queue.drop (requests calls) := by
  induction calls generalizing a with
  | nil => rfl
  | cons c calls ih =>
    rw [List.foldl_cons, ih]
    cases c with
    | notice n => rfl
    | input r =>
      change a.queue.tail.drop _ = _
      rw [requests_input, List.drop_tail]

private theorem replies_of_answers (h : Host.Answers a calls) :
    calls.filterMap reply? = (List.range (requests calls)).map (replyAt a.queue) := by
  induction calls generalizing a with
  | nil => rfl
  | cons c calls ih =>
    have hcalls := ih h.2
    cases c with
    | notice n => exact hcalls
    | input r =>
      have hr : r = replyAt a.queue 0 := (h.1 r rfl).trans a.reply_eq
      have htail : (Host.after (.input r) a : Recorder).queue = a.queue.tail := rfl
      rw [htail, funext (replyAt_tail a.queue)] at hcalls
      rw [requests_input, List.range_succ_eq_map, List.map_cons, List.map_map, ← hr]
      exact congrArg (r :: ·) hcalls

private theorem provided_of_answers (h : Host.Answers a calls) :
    calls.filterMap provided? = a.queue.take (requests calls) := by
  induction calls generalizing a with
  | nil => rfl
  | cons c calls ih =>
    have hcalls := ih h.2
    cases c with
    | notice n => exact hcalls
    | input r =>
      have hr : r = replyAt a.queue 0 := (h.1 r rfl).trans a.reply_eq
      obtain ⟨queue, heard⟩ := a
      subst hr
      cases queue with
      | nil => simpa [replyAt, provided?, Host.after] using hcalls
      | cons t queue => exact congrArg (t :: ·) hcalls

/-- The first so many replies from the two queues come to the same integers. -/
def AlikeFor (k : Nat) (a b : Recorder) : Prop :=
  ∀ i < k, (replyAt b.queue i).scalar = (replyAt a.queue i).scalar

private theorem mirrors_alikeFor : Host.Mirrors AlikeFor where
  notice n h := h
  scalar h := by
    rw [reply_eq, reply_eq]
    exact h 0 (Nat.succ_pos _)
  input h i hi := by
    change (replyAt (List.tail _) i).scalar = (replyAt (List.tail _) i).scalar
    rw [replyAt_tail, replyAt_tail]
    exact h (i + 1) (Nat.succ_lt_succ hi)

/-- The recorder that has heard other calls before its own. -/
def afterCalls (earlier : List Call) (a : Recorder) : Recorder := ⟨a.queue, a.heard ++ earlier⟩

private theorem keeps_afterCalls (earlier : List Call) : Host.Keeps (afterCalls earlier) where
  reply a := rfl
  after c a := by cases c <;> rfl

/-- Runs programs in turn, each with a new recorder for what is left of the queue. -/
def runAfresh (settings : Settings) (steps : Nat) :
    List Text → List Text → Option (List (Report (List Text)))
  | _, [] => some []
  | queue, source :: sources => do
    let report ← runProgram settings source ({ queue } : Recorder) steps
    let reports ← runAfresh settings steps (queue.drop (requests report.calls)) sources
    some (report.mapHost Recorder.queue :: reports)

/-- What a recorder has heard before makes no difference to the programs that it serves. -/
theorem runAll_eq_runAfresh (settings : Settings) (steps : Nat) (a : Recorder)
    (sources : List Text) :
    (runAll settings steps a sources).map (fun r => r.1.map (Report.mapHost Recorder.queue)) =
      runAfresh settings steps a.queue sources := by
  induction sources generalizing a with
  | nil => rfl
  | cons source sources ih =>
    have hrun : runProgram settings source a steps =
        (runProgram settings source ({ queue := a.queue } : Recorder) steps).map
          (Report.mapHost (afterCalls a.heard)) :=
      runProgram_map (keeps_afterCalls a.heard) settings source { queue := a.queue } steps
    rw [runAll, runAfresh, hrun]
    cases hfresh : runProgram settings source ({ queue := a.queue } : Recorder) steps with
    | none => rfl
    | some report =>
      have hqueue : report.host.queue = a.queue.drop (requests report.calls) := by
        rw [(answers_of_runProgram hfresh).1, queue_foldl]
      have hrest := ih (report.mapHost (afterCalls a.heard)).host
      change _ = runAfresh settings steps report.host.queue sources at hrest
      rw [hqueue] at hrest
      simp only [Option.map_some, Option.bind_eq_bind, Option.bind_some, ← hrest]
      cases runAll settings steps (report.mapHost (afterCalls a.heard)).host sources <;> rfl

end Recorder

open Recorder

/-- A run depends on its queue only through the integers of the replies that it takes. It takes
these off the front of the queue in order, and the next run goes on with the rest as it would with a
new recorder. -/
theorem run_determined_by_scalars (settings : Settings) :
    (∀ source (a b : Recorder) steps report, runProgram settings source a steps = some report →
      (∀ i < requests report.calls, (replyAt b.queue i).scalar = (replyAt a.queue i).scalar) →
        ∃ report', runProgram settings source b steps = some report' ∧
          report'.fault = report.fault ∧ report'.state = report.state ∧
          requests report'.calls = requests report.calls ∧
          List.Forall₂ Alike report.calls report'.calls) ∧
    (∀ source (a : Recorder) steps report, runProgram settings source a steps = some report →
      report.calls.filterMap reply? =
          (List.range (requests report.calls)).map (replyAt a.queue) ∧
        report.calls.filterMap provided? =
          a.queue.take (min (requests report.calls) a.queue.length) ∧
        report.host.queue = a.queue.drop (min (requests report.calls) a.queue.length)) ∧
    ∀ steps (a : Recorder) sources,
      (runAll settings steps a sources).map (fun r => r.1.map (Report.mapHost Recorder.queue)) =
        runAfresh settings steps a.queue sources := by
  refine ⟨fun source a b steps report hrun hab => ?_, fun source a steps report hrun => ?_,
    runAll_eq_runAfresh settings⟩
  · obtain ⟨report', hrun', hmirrors⟩ := runProgram_mirrored mirrors_alikeFor hrun hab
    exact ⟨report', hrun', hmirrors.fault, hmirrors.state, requests_eq_of_alike hmirrors.calls,
      hmirrors.calls⟩
  · obtain ⟨hheard, hanswers⟩ := answers_of_runProgram hrun
    refine ⟨replies_of_answers hanswers, ?_, ?_⟩
    · rw [provided_of_answers hanswers, List.take_eq_take_min]
    · rw [hheard, queue_foldl, List.drop_eq_drop_min]

theorem run_determined_by_scalars_in_loop :
    let source := ['>', 'x', '<', '&', '<', '?', '[', '!', '∞', ']', '{', '0', '<', 'x', '}', '(',
      '>', 'x', '<', '&', '<', ')']
    let a : Recorder := { queue := [['3'], ['0'], ['7']] }
    let b : Recorder := { queue := [[' ', '3']] }
    ∃ report report', runProgram {} source a 12 = some report ∧ requests report.calls = 2 ∧
      (∀ i < 2, (replyAt b.queue i).scalar = (replyAt a.queue i).scalar) ∧
      runProgram {} source b 12 = some report' ∧ report'.state = report.state ∧
      List.Forall₂ Alike report.calls report'.calls ∧ report'.calls ≠ report.calls ∧
      report.host.queue = [['7']] ∧ report'.host.queue = [] := by
  intro source a b
  obtain ⟨report, hrun, hrequests⟩ : ∃ report, runProgram {} source a 12 = some report ∧
      requests report.calls = 2 := ⟨_, rfl, rfl⟩
  have hab : ∀ i < 2, (replyAt b.queue i).scalar = (replyAt a.queue i).scalar := by decide
  obtain ⟨hsame, htaken, -⟩ := run_determined_by_scalars {}
  obtain ⟨report', hrun', -, hstate, hrequests', hcalls⟩ :=
    hsame source a b 12 report hrun (hrequests ▸ hab)
  obtain ⟨hreplies, -, hqueue⟩ := htaken source a 12 report hrun
  obtain ⟨hreplies', -, hqueue'⟩ := htaken source b 12 report' hrun'
  rw [hrequests] at hreplies hqueue hrequests'
  rw [hrequests'] at hreplies' hqueue'
  refine ⟨report, report', hrun, hrequests, hab, hrun', hstate, hcalls, fun h => ?_, hqueue,
    hqueue'⟩
  rw [h, hreplies] at hreplies'
  exact absurd hreplies' (by decide)

end BlueNexus
