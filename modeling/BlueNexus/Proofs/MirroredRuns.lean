import BlueNexus.Proofs.SessionRuns
import Mathlib.Data.List.Forall2

/-!
# Runs with two hosts

A run sees nothing of its host but the integers to which the replies come. Where two hosts give the
same integers for as many requests as a run makes, the run with the one is that with the other:
fault and state are the same, and so are the calls but for the replies (`runProgram_mirrored`). A
map that keeps the replies and goes along with the calls takes runs to runs (`runProgram_map`).
-/

namespace BlueNexus

namespace Call

/-- The same notice, or requests whose replies come to the same integer. -/
inductive Alike : Call → Call → Prop
  | notice (n) : Alike (.notice n) (.notice n)
  | input {r r' : Reply} (h : r'.scalar = r.scalar) : Alike (.input r) (.input r')

def reply? : Call → Option Reply
  | .notice _ => none
  | .input r => some r

/-- The number of requests among the calls. -/
def requests (calls : List Call) : Nat := (calls.filterMap reply?).length

@[simp] theorem requests_nil : requests [] = 0 := rfl

@[simp] theorem requests_notice (n : Notice) (calls : List Call) :
    requests (.notice n :: calls) = requests calls := rfl

@[simp] theorem requests_input (r : Reply) (calls : List Call) :
    requests (.input r :: calls) = requests calls + 1 := rfl

@[simp] theorem requests_reverse (calls : List Call) :
    requests calls.reverse = requests calls := by
  rw [requests, List.filterMap_reverse, List.length_reverse, requests]

theorem requests_eq_of_alike {a b : List Call} (h : List.Forall₂ Alike a b) :
    requests b = requests a := by
  induction h with
  | nil => rfl
  | cons h _ ih =>
    cases h with
    | notice n => exact ih
    | input _ => exact congrArg (· + 1) ih

end Call

open Call

/-- Hosts that are so related for a number of requests give the same integers to as many. -/
structure Host.Mirrors {σ τ : Type} [Host σ] [Host τ] (R : Nat → σ → τ → Prop) : Prop where
  notice {k a b} (n : Notice) (h : R k a b) :
    R k (Host.after (.notice n) a) (Host.after (.notice n) b)
  scalar {k a b} (h : R (k + 1) a b) : (Host.reply b).scalar = (Host.reply a).scalar
  input {k a b} (h : R (k + 1) a b) :
    R k (Host.after (.input (Host.reply a)) a) (Host.after (.input (Host.reply b)) b)

theorem Host.Mirrors.symm {σ τ : Type} [Host σ] [Host τ] {R : Nat → σ → τ → Prop}
    (h : Host.Mirrors R) : Host.Mirrors fun k b a => R k a b where
  notice n hab := h.notice n hab
  scalar hab := (h.scalar hab).symm
  input hab := h.input hab

section Mirrored

variable {σ τ : Type} {R : Nat → σ → τ → Prop} {n : Nat}

/-- The second session is at the same point of a run of `n` requests, and its host has the same
integers in store. -/
structure Session.Mirrors (R : Nat → σ → τ → Prop) (n : Nat) (s : Session σ) (t : Session τ) :
    Prop where
  machine : t.machine = s.machine
  calls : List.Forall₂ Alike s.calls t.calls
  hosts : ∃ k, k + requests s.calls = n ∧ R k s.host t.host

/-- The second report says the same of its run, and its host could go on like the other. -/
structure Report.Mirrors (R : Nat → σ → τ → Prop) (r : Report σ) (r' : Report τ) : Prop where
  fault : r'.fault = r.fault
  state : r'.state = r.state
  calls : List.Forall₂ Alike r.calls r'.calls
  hosts : R 0 r.host r'.host

variable [Host σ] [Host τ] {limit steps : Nat} {s s' z : Session σ} {t : Session τ}
  {fault : Option Fault}

namespace Session

omit [Host τ] in
theorem Next.requests_le (h : Next limit s s') : requests s.calls ≤ requests s'.calls := by
  obtain ⟨_, -, hgoes⟩ := h.goes
  cases hgoes with
  | silent m | tell n m => exact Nat.le_refl _
  | ask resume => exact Nat.le_succ _

omit [Host τ] in
theorem Reaches.requests_le (h : s.Reaches limit z) : requests s.calls ≤ requests z.calls := by
  induction h with
  | refl => exact Nat.le_refl _
  | tail _ hn ih => exact Nat.le_trans ih hn.requests_le

theorem Mirrors.tell (hR : Host.Mirrors R) (h : s.Mirrors R n t) (c : Notice) (m : Machine) :
    (Session.call (.notice c) { s with machine := m }).Mirrors R n
      (Session.call (.notice c) { t with machine := m }) := by
  obtain ⟨k, hk, hosts⟩ := h.hosts
  exact ⟨rfl, .cons (.notice c) h.calls, k, hk, hR.notice c hosts⟩

theorem Mirrors.ask (hR : Host.Mirrors R) (h : s.Mirrors R n t) (hlt : requests s.calls < n)
    (resume : Int64 → Machine) :
    (Session.call (.input (Host.reply s.host))
      { s with machine := resume (Host.reply s.host).scalar }).Mirrors R n
        (Session.call (.input (Host.reply t.host))
          { t with machine := resume (Host.reply t.host).scalar }) := by
  obtain ⟨k, hk, hosts⟩ := h.hosts
  obtain ⟨j, rfl⟩ : ∃ j, k = j + 1 := ⟨k - 1, by omega⟩
  have hscalar := hR.scalar hosts
  refine ⟨congrArg resume hscalar, .cons (.input hscalar) h.calls, j, ?_, hR.input hosts⟩
  rw [← hk, Nat.add_right_comm]
  rfl

theorem Mirrors.next (hR : Host.Mirrors R) (h : s.Mirrors R n t) (hn : Next limit s s')
    (hle : requests s'.calls ≤ n) : ∃ t', Next limit t t' ∧ s'.Mirrors R n t' := by
  obtain ⟨m, hm, hgoes⟩ := hn.goes
  have hstep : t.step limit = t.move m := by rw [step_eq, h.machine, hm]
  cases hgoes with
  | silent m => exact ⟨_, hstep, rfl, h.calls, h.hosts⟩
  | tell c m => exact ⟨_, hstep, h.tell hR c m⟩
  | ask resume => exact ⟨_, hstep, h.ask hR hle resume⟩

theorem Mirrors.ended (h : s.Mirrors R n t) (hz : s.step limit = .ended z fault) :
    t.step limit = .ended t fault := by
  obtain rfl := eq_of_step_ended hz
  rw [step_ended_iff, h.machine]
  exact step_ended_iff.1 hz

theorem Mirrors.run (hR : Host.Mirrors R) (h : s.Mirrors R n t)
    (hrun : s.run limit steps = some (z, fault)) (hle : requests z.calls ≤ n) :
    ∃ z', t.run limit steps = some (z', fault) ∧ z.Mirrors R n z' := by
  induction steps generalizing s t with
  | zero => cases hrun
  | succ steps ih =>
    rw [Session.run.eq_2] at hrun
    cases hs : s.step limit with
    | ongoing s' =>
      rw [hs] at hrun
      have hle' := Nat.le_trans (ends_of_run hrun).1.requests_le hle
      obtain ⟨t', hn, ht⟩ := h.next hR hs hle'
      obtain ⟨z', hz, hmirrors⟩ := ih ht hrun
      refine ⟨z', ?_, hmirrors⟩
      rw [Session.run.eq_2, hn]
      exact hz
    | ended s' f =>
      rw [hs] at hrun
      cases hrun
      obtain rfl := eq_of_step_ended hs
      exact ⟨t, by rw [Session.run.eq_2, h.ended hs], h⟩

theorem Mirrors.conclude (hR : Host.Mirrors R) (h : s.Mirrors R n t) (settings : Settings)
    (fault : Option Fault) :
    (s.conclude settings fault).Mirrors R n (t.conclude settings fault) := by
  obtain ⟨m, host, calls⟩ := t
  obtain rfl : m = s.machine := h.machine
  cases fault with
  | some e => exact h.tell hR _ _
  | none =>
    unfold Session.conclude
    dsimp only
    split
    · exact h.tell hR _ _
    · exact h

omit [Host τ] in
@[simp] theorem requests_conclude (settings : Settings) (s : Session σ) (fault : Option Fault) :
    requests (s.conclude settings fault).calls = requests s.calls := by
  unfold Session.conclude
  split
  · rfl
  · split <;> rfl

omit [Host τ] in
@[simp] theorem requests_report (settings : Settings) (s : Session σ) (fault : Option Fault) :
    requests (s.report settings fault).calls = requests s.calls :=
  (requests_reverse _).trans (s.requests_conclude settings fault)

theorem Mirrors.report (hR : Host.Mirrors R) (h : s.Mirrors R (requests s.calls) t)
    (settings : Settings) (fault : Option Fault) :
    (s.report settings fault).Mirrors R (t.report settings fault) := by
  obtain ⟨machine, calls, k, hk, hosts⟩ := h.conclude hR settings fault
  obtain rfl : k = 0 := by
    rw [s.requests_conclude] at hk
    omega
  exact ⟨rfl, congrArg Machine.state machine, List.rel_reverse calls, hosts⟩

end Session

variable {settings : Settings} {source : Text} {a : σ} {b : τ} {report : Report σ}

/-- A run with one host is, within as many steps, a run with any host that gives the same integers
to its requests. -/
theorem runProgram_mirrored (hR : Host.Mirrors R)
    (hrun : runProgram settings source a steps = some report)
    (hab : R (requests report.calls) a b) :
    ∃ report', runProgram settings source b steps = some report' ∧ report.Mirrors R report' := by
  have start : ∀ ts, (Session.start ts a).Mirrors R (requests report.calls) (Session.start ts b) :=
    fun ts => ⟨rfl, .nil, _, Nat.add_zero _, hab⟩
  cases ht : programTokens settings.limit source with
  | error e =>
    simp only [runProgram, ht, Option.some.injEq] at hrun
    subst hrun
    refine ⟨_, by rw [runProgram, ht], ?_⟩
    have hmirrors := start []
    rw [Session.requests_report] at hmirrors
    exact hmirrors.report hR settings (some e)
  | ok ts =>
    simp only [runProgram, ht, Option.map_eq_some_iff] at hrun
    obtain ⟨⟨z, fault⟩, hrun, rfl⟩ := hrun
    have hrequests : requests (z.report settings fault).calls = requests z.calls :=
      z.requests_report settings fault
    obtain ⟨z', hrun', hz⟩ := (start ts).run hR hrun (Nat.le_of_eq hrequests.symm)
    refine ⟨z'.report settings fault, by simp [runProgram, ht, hrun'], ?_⟩
    rw [hrequests] at hz
    exact hz.report hR settings fault

end Mirrored

section Mapped

variable {σ τ : Type} {f : σ → τ}

/-- A map of hosts that keeps the replies and goes along with the calls. -/
structure Host.Keeps [Host σ] [Host τ] (f : σ → τ) : Prop where
  reply (a) : Host.reply (f a) = Host.reply a
  after (c a) : Host.after c (f a) = f (Host.after c a)

def Session.mapHost (f : σ → τ) (s : Session σ) : Session τ := ⟨s.machine, f s.host, s.calls⟩

def Progress.mapHost (f : σ → τ) : Progress σ → Progress τ
  | .ongoing s => .ongoing (s.mapHost f)
  | .ended s fault => .ended (s.mapHost f) fault

def Report.mapHost (f : σ → τ) (r : Report σ) : Report τ := ⟨r.fault, r.state, r.calls, f r.host⟩

variable [Host σ] [Host τ]

namespace Session

@[simp] theorem call_mapHost (hf : Host.Keeps f) (c : Call) (s : Session σ) :
    (s.mapHost f).call c = (s.call c).mapHost f := by
  rw [call, mapHost, hf.after]
  rfl

private theorem step_mapHost (hf : Host.Keeps f) (limit : Nat) (s : Session σ) :
    (s.mapHost f).step limit = (s.step limit).mapHost f := by
  rw [step_eq, step_eq]
  change (s.mapHost f).move (s.machine.step limit) = _
  cases s.machine.step limit with
  | silent m | finished | failed e => rfl
  | tell n m =>
    exact congrArg Progress.ongoing (call_mapHost hf (.notice n) { s with machine := m })
  | ask resume =>
    simp only [move, mapHost, hf.reply]
    exact congrArg Progress.ongoing <| call_mapHost hf (.input (Host.reply s.host))
      { s with machine := resume (Host.reply s.host).scalar }

private theorem run_mapHost (hf : Host.Keeps f) (limit steps : Nat) (s : Session σ) :
    (s.mapHost f).run limit steps =
      (s.run limit steps).map fun z => (z.1.mapHost f, z.2) := by
  induction steps generalizing s with
  | zero => rfl
  | succ steps ih =>
    rw [run.eq_2, run.eq_2, step_mapHost hf]
    cases s.step limit with
    | ongoing s' => exact ih s'
    | ended s' fault => rfl

theorem report_mapHost (hf : Host.Keeps f) (settings : Settings) (s : Session σ)
    (fault : Option Fault) :
    (s.mapHost f).report settings fault = (s.report settings fault).mapHost f := by
  have hconclude : (s.mapHost f).conclude settings fault =
      (s.conclude settings fault).mapHost f := by
    cases fault with
    | some e => exact call_mapHost hf _ { s with machine := _ }
    | none =>
      change (if settings.completionNotice ∧ s.machine.state.printed = []
        then (s.mapHost f).print completionNotice else s.mapHost f) = _
      unfold conclude
      dsimp only
      split
      · exact call_mapHost hf _ { s with machine := _ }
      · rfl
  rw [report, hconclude]
  rfl

end Session

theorem runProgram_map (hf : Host.Keeps f) (settings : Settings) (source : Text) (a : σ)
    (steps : Nat) :
    runProgram settings source (f a) steps =
      (runProgram settings source a steps).map (Report.mapHost f) := by
  have hstart : ∀ ts, Session.start ts (f a) = (Session.start ts a).mapHost f := fun _ => rfl
  unfold runProgram
  cases programTokens settings.limit source with
  | error e =>
    exact congrArg some (Session.report_mapHost hf settings (Session.start [] a) (some e))
  | ok ts =>
    simp only [hstart, Session.run_mapHost hf, Option.map_map]
    congr 1
    funext z
    exact Session.report_mapHost hf settings z.1 z.2

end Mapped

end BlueNexus
