import BlueNexus.Proofs.CodeSequences

/-!
# How loops and nested code end

Nothing that is executed halts the state, and the depth counts the code that is being executed at
any time (`Task.Levels`). So no loop is cut short: one on a condition ends well only where the
condition fails, one over a sequence goes on for as many times as the sequence was long, and code
that ends well is done to its last token (`loops_end_for_their_own_reasons`).
-/

namespace BlueNexus

open Session Token

variable {σ : Type} [Host σ] {limit : Nat} {c c' : Context σ} {predicate command : Fragment}
  {r : Option Fault} {ts : List Token}

def Task.isCode : Task → Bool
  | .code _ _ => true
  | _ => false

/-- The tasks of code that is executed from the depth `base` on. Code in front of them would be at
the depth given last. -/
inductive Task.Levels (limit base : Nat) : List Task → Nat → Prop
  | nil : Levels limit base [] base
  | code {rest depth} (ts) (hd : depth ≤ limit) (h : Levels limit base rest depth) :
      Levels limit base (.code depth ts :: rest) (depth + 1)
  | store {rest depth} (x) (h : Levels limit base rest depth) :
      Levels limit base (.store x :: rest) depth
  | loop {rest depth} (predicate command) (h : Levels limit base rest (depth + 1)) :
      Levels limit base (.loop depth predicate command :: rest) (depth + 1)
  | times {rest depth} (n command) (h : Levels limit base rest (depth + 1)) :
      Levels limit base (.times depth n command :: rest) (depth + 1)

namespace Task.Levels

variable {base depth : Nat} {tasks rest past : List Task} {s : State} {m : Move}

private theorem eq_add (h : Levels limit base tasks depth) :
    depth = base + tasks.countP isCode := by
  induction h with
  | nil => rfl
  | code ts hd h ih =>
    rw [List.countP_cons_of_pos rfl]
    omega
  | store x h ih => simpa [isCode] using ih
  | loop p f h ih => simpa [isCode] using ih
  | times n f h ih => simpa [isCode] using ih

theorem of_code (h : Levels limit base tasks depth) {front : List Task} {d : Nat}
    (ht : tasks = front ++ .code d ts :: rest) : d = base + rest.countP isCode ∧ d ≤ limit := by
  induction h generalizing front with
  | nil => simp at ht
  | code us hd h ih =>
    cases front with
    | nil =>
      cases ht
      exact ⟨h.eq_add, hd⟩
    | cons t front => exact ih (List.cons.inj ht).2
  | store x h ih | loop p f h ih | times n f h ih =>
    cases front with
    | nil => cases ht
    | cons t front => exact ih (List.cons.inj ht).2

/-- The machine has its tasks in levels. -/
def Holds (limit base : Nat) (m : Machine) : Prop := ∃ depth, Levels limit base m.tasks depth

theorem enters {f : Fragment} (h : Machine.Enters limit depth f rest s m)
    (hl : Levels limit base rest (depth + 1)) : m.Leads (Holds limit base) fun _ => True := by
  cases h with
  | unreadable | tooDeep => trivial
  | entered h hd => exact ⟨_, .code _ hd hl⟩

theorem entersIf {p f : Fragment} (h : Machine.EntersIf limit depth p f rest past s m)
    (hl : Levels limit base rest (depth + 1)) (hpast : Levels limit base past (depth + 1)) :
    m.Leads (Holds limit base) fun _ => True := by
  cases h with
  | unreadable => trivial
  | passed => exact ⟨_, hpast⟩
  | holding _ h => exact enters h hl

theorem steps (h : Machine.Steps limit tasks s m) (hl : Levels limit base tasks depth) :
    m.Leads (Holds limit base) fun _ => True := by
  cases hl with
  | nil => cases h <;> trivial
  | code ts hd hl =>
    cases h with
    | halted | printUnbound | pushUnbound => trivial
    | codeOver => exact ⟨_, hl⟩
    | act | snapshot | print | printNothing => exact ⟨_, .code _ hd hl⟩
    | ask => exact fun _ => ⟨_, .code _ hd hl⟩
    | block _ _ _ _ _ h => exact enters h (.store _ (.code _ hd hl))
    | once _ _ _ _ h => exact entersIf h (.code _ hd hl) (.code _ hd hl)
    | whilst => exact ⟨_, .loop _ _ (.code _ hd hl)⟩
    | each => exact ⟨_, .times _ _ (.code _ hd hl)⟩
  | store x hl =>
    cases h with
    | halted => trivial
    | store => exact ⟨_, hl⟩
  | loop p f hl =>
    cases h with
    | halted => trivial
    | loop _ _ h => exact entersIf h (.loop p f hl) hl
  | times n f hl =>
    cases h with
    | halted => trivial
    | timesOver => exact ⟨_, hl⟩
    | times _ n _ h => exact enters h (.times n f hl)

theorem reaches {s z : Session σ} (h : s.Reaches limit z)
    (hl : Levels limit base s.machine.tasks depth) : Holds limit base z.machine :=
  h.invariant (fun m ⟨_, hm⟩ => steps (Machine.steps_step limit m) hm) ⟨_, hl⟩

end Task.Levels

theorem executes_conditional_iff {kind : ConditionKind} {w : Work} {o : Nat} (hc : c.Running)
    (h : (Form.conditional kind predicate command).Nests limit c.state w id) :
    Executes limit (.code [⟨.conditional kind predicate command, o⟩]) c c' r ↔
      Executes limit w c c' r := by
  constructor
  · intro hcode
    cases hcode with
    | halted hh => exact absurd (hc.symm.trans hh) Bool.false_ne_true
    | does _ hd =>
      cases hd with
      | act _ hd => cases hd; cases h
      | ask _ hd => cases hd
      | snapshot _ hd => cases hd
    | misses _ hm => cases hm
    | nests _ h' hw hs =>
      obtain ⟨rfl, rfl⟩ := Executes.of_nil.1 hs
      cases h <;> cases h' <;> exact hw
    | nestsFault _ h' hw => cases h <;> cases h' <;> exact hw
  · intro hw
    cases r with
    | none => exact .nests hc h hw (.finished _)
    | some e => exact .nestsFault hc h hw

theorem Executes.loop_exit (h : Executes limit (.loop predicate command) c c' none) :
    Condition.holds limit c'.state predicate = .ok false := by
  generalize hw : Work.loop predicate command = w at h
  generalize hr : (none : Option Fault) = r at h
  induction h with
  | loopOver h =>
    cases hw
    exact h
  | again h hw' hs ihw ihs =>
    cases hw
    exact ihs rfl hr
  | loopGuardFault | againFault => cases hr
  | _ => cases hw

/-- A fragment ends well so many times in a row. -/
inductive Fragment.Repeats (limit : Nat) (f : Fragment) : Nat → Context σ → Context σ → Prop
  | none (c : Context σ) : Repeats limit f 0 c c
  | more {n} {c c₁ c' : Context σ} (h : Executes limit (.fragment f) c c₁ none)
      (hs : Repeats limit f n c₁ c') : Repeats limit f (n + 1) c c'

/-- A counted loop is the fragment in a row, up to the first fault if there is one. -/
theorem executes_times_iff {n : Nat} :
    Executes limit (.times n command) c c' r ↔
      (r = none ∧ command.Repeats limit n c c') ∨
        ∃ k < n, ∃ c₁ e, r = some e ∧ command.Repeats limit k c c₁ ∧
          Executes limit (.fragment command) c₁ c' (some e) := by
  constructor
  · intro h
    induction n generalizing c with
    | zero =>
      cases h
      exact .inl ⟨rfl, .none _⟩
    | succ n ih =>
      cases h with
      | times hw hs =>
        rcases ih hs with ⟨rfl, hrep⟩ | ⟨k, hk, c₁, e, rfl, hrep, he⟩
        · exact .inl ⟨rfl, .more hw hrep⟩
        · exact .inr ⟨k + 1, Nat.succ_lt_succ hk, c₁, e, rfl, .more hw hrep, he⟩
      | timesFault n hw => exact .inr ⟨0, Nat.succ_pos n, c, _, rfl, .none c, hw⟩
  · rintro (⟨rfl, hrep⟩ | ⟨k, hk, c₁, e, rfl, hrep, he⟩)
    · induction hrep with
      | none c => exact .timesOver command c
      | more h hs ih => exact .times h ih
    · induction hrep generalizing n with
      | none c =>
        obtain ⟨n, rfl⟩ := Nat.exists_eq_succ_of_ne_zero (Nat.ne_of_gt hk)
        exact .timesFault n he
      | more h hs ih =>
        obtain ⟨n, rfl⟩ := Nat.exists_eq_succ_of_ne_zero (Nat.ne_of_gt (Nat.zero_lt_of_lt hk))
        exact .times h (ih (Nat.lt_of_succ_lt_succ hk) he)

theorem Executes.reaches_end (h : Executes limit (.code ts) c c' none) (hc : c.Running) :
    (c.session [.code c.depth ts]).Reaches limit (c'.session [.code c'.depth []]) := by
  generalize hw : Work.code ts = w at h
  generalize hr : (none : Option Fault) = r at h
  induction h generalizing ts with
  | halted hh => exact absurd (hc.symm.trans hh) Bool.false_ne_true
  | finished c =>
    cases hw
    exact .refl
  | does _ h hs ih =>
    cases hw
    exact .head (h.next hc []) (ih (h.running hc) rfl hr)
  | nests _ h hwork hs ihw ihs =>
    cases hw
    obtain ⟨tasks, mid, hbegin, hstart, hback⟩ := h.begins hc _ []
    have hc₁ := hwork.running hc
    have hwhole : (Context.session tasks _).Reaches limit (Context.session mid _) :=
      hwork.leads hc tasks mid hstart
    exact ((hbegin.trans hwhole).trans (hback _ hc₁ hwork.depth_eq)).trans
      (ihs (h.running hc₁) rfl hr)
  | misses | nestsFault => cases hr
  | _ => cases hw

@[simp] theorem Session.report_tasks (settings : Settings) (z : Session σ) (tasks : List Task)
    (fault : Option Fault) :
    Session.report settings ⟨⟨tasks, z.machine.state⟩, z.host, z.calls⟩ fault =
      z.report settings fault := by
  cases fault with
  | some e => rfl
  | none =>
    simp only [Session.report, conclude]
    split
    · rfl
    · rfl

@[simp] theorem Session.report_halted (settings : Settings) {z : Session σ}
    (hz : z.machine.state.halted = false) (fault : Option Fault) :
    (z.report settings fault).state.halted = fault.isSome := by
  cases fault with
  | some e => rfl
  | none =>
    simp only [Session.report, conclude]
    split
    · exact hz
    · exact hz

theorem report_of_running {settings : Settings} {source : Text} {host : σ} {report : Report σ}
    (h : ∃ steps, runProgram settings source host steps = some report) :
    ∃ c' : Context σ, c'.depth = 0 ∧ c'.Running ∧
      report = (c'.session []).report settings report.fault ∧
      report.state.halted = report.fault.isSome ∧
      ((∃ e, programTokens settings.limit source = .error e ∧ report.fault = some e ∧
          c' = ⟨0, {}, host, []⟩) ∨
        ∃ ts, programTokens settings.limit source = .ok ts ∧
          Executes settings.limit (.code ts) ⟨0, {}, host, []⟩ c' report.fault) := by
  rcases exists_runProgram_iff.1 h with ⟨e, ht, rfl⟩ | ⟨ts, z, fault, ht, hz, rfl⟩
  · exact ⟨⟨0, {}, host, []⟩, rfl, rfl, rfl, rfl, .inl ⟨e, ht, rfl, rfl⟩⟩
  · let c' : Context σ := ⟨0, z.machine.state, z.host, z.calls⟩
    have hs : Executes settings.limit (.code ts) ⟨0, {}, host, []⟩ c' fault :=
      executes_iff_ends.2 ⟨rfl, z.machine.tasks, hz⟩
    have hc' : c'.Running := hs.running rfl
    have hreport : z.report settings fault = (c'.session []).report settings fault :=
      (report_tasks settings z [] fault).symm
    exact ⟨c', rfl, hc', hreport, report_halted settings (z := z) hc' fault, .inr ⟨ts, ht, hs⟩⟩

/-- What is executed leaves the state running and the depth as it was, and no code is deeper than
the limit. So loops and code end for their own reasons. -/
theorem loops_end_for_their_own_reasons (settings : Settings) (c : Context σ) (ts : List Token)
    (hc : c.Running) (hd : c.depth ≤ settings.limit) :
    (∀ c' r, Executes settings.limit (.code ts) c c' r → c'.Running ∧ c'.depth = c.depth) ∧
    (∀ z, (c.session [.code c.depth ts]).Reaches settings.limit z →
      z.machine.state.halted = false ∧
      ∀ front d us rest, z.machine.tasks = front ++ .code d us :: rest →
        d = c.depth + rest.countP Task.isCode ∧ d ≤ settings.limit) ∧
    (∀ source (host : σ) steps report, runProgram settings source host steps = some report →
      ∃ c' : Context σ, c'.depth = 0 ∧ c'.Running ∧
        report = (c'.session []).report settings report.fault ∧
        report.state.halted = report.fault.isSome ∧
        ((∃ e, programTokens settings.limit source = .error e ∧ report.fault = some e ∧
            c' = ⟨0, {}, host, []⟩) ∨
          ∃ ts, programTokens settings.limit source = .ok ts ∧
            Executes settings.limit (.code ts) ⟨0, {}, host, []⟩ c' report.fault)) ∧
    (∀ predicate command o c',
      Executes settings.limit (.code [⟨.conditional .whilst predicate command, o⟩]) c c' none →
        Condition.holds settings.limit c'.state predicate = .ok false) ∧
    (∀ predicate command o x items, Condition.target? predicate.text = some x →
      c.state.variables.get? x = some (.sequence items) → ∀ c' r,
        Executes settings.limit (.code [⟨.conditional .each predicate command, o⟩]) c c' r ↔
          (r = none ∧ command.Repeats settings.limit items.length c c') ∨
            ∃ k < items.length, ∃ c₁ e, r = some e ∧ command.Repeats settings.limit k c c₁ ∧
              Executes settings.limit (.fragment command) c₁ c' (some e)) ∧
    ∀ c', Executes settings.limit (.code ts) c c' none →
      (c.session [.code c.depth ts]).Reaches settings.limit (c'.session [.code c'.depth []]) ∧
      ∀ a b, ts = a ++ b → Parted a b →
        ∃ c₁, Executes settings.limit (.code a) c c₁ none ∧
          Executes settings.limit (.code b) c₁ c' none := by
  refine ⟨fun c' r h => ⟨h.running hc, h.depth_eq⟩, fun z hz => ⟨hz.running hc, ?_⟩,
    fun source host steps report h => report_of_running ⟨steps, h⟩, ?_, ?_, ?_⟩
  · intro front d us rest ht
    have hstart : Task.Levels settings.limit c.depth [.code c.depth ts] (c.depth + 1) :=
      .code ts hd .nil
    obtain ⟨depth, hlevels⟩ := hstart.reaches (s := c.session [.code c.depth ts]) hz
    exact hlevels.of_code ht
  · intro p f o c' h
    exact ((executes_conditional_iff hc (.whilst p f c.state)).1 h).loop_exit
  · intro p f o x items hx hget c' r
    have helements : Condition.elements c.state p = items.length := by
      simp [Condition.elements, hx, hget]
    have hnests : (Form.conditional .each p f).Nests settings.limit c.state
        (.times items.length f) id := helements ▸ .each p f c.state
    rw [executes_conditional_iff hc hnests, executes_times_iff]
  · intro c' h
    refine ⟨h.reaches_end hc, fun a b ht hab => ?_⟩
    subst ht
    rcases (executes_append_iff hc hab).1 h with ⟨e, he, -⟩ | hboth
    · cases he
    · exact hboth

/-- The command makes an integer of the sequence, and is executed for both elements all the same. -/
theorem loops_end_for_their_own_reasons_over_sequence :
    let x : Name := ⟨'x', rfl⟩
    let c : Context Recorder :=
      ⟨0, { «variables» := Bindings.set x (.sequence [97, 98]) {} }, { queue := [] }, []⟩
    let command : Fragment := ⟨['>', 'x', '<', '7', '<', '1'], 10, []⟩
    let code : List Token := [⟨.conditional .each ⟨['*', 'x'], 5, []⟩ command, 0⟩]
    c.Running ∧ c.depth ≤ Settings.limit {} ∧ ∃ c' : Context Recorder,
      Executes (Settings.limit {}) (.code code) c c' none ∧ c'.Running ∧ c'.depth = 0 ∧
      c'.state.stack.toList = [1, 1] ∧ c'.state.variables.get? x = some (.scalar 7) := by
  intro x c command code
  let us : List Token := [⟨.block x ⟨['7'], 13, []⟩, 10⟩, ⟨.number 1, 15⟩]
  let after (c : Context Recorder) : Context Recorder :=
    (c.put (c.state.assign x (.scalar 7))).put ((c.state.assign x (.scalar 7)).push 1)
  have hread : command.tokens (Settings.limit {}) = .ok us := rfl
  have hbody : ∀ c : Context Recorder, c.Running → c.depth < Settings.limit {} →
      Executes (Settings.limit {}) (.fragment command) c (after c.deeper).shallower none := by
    intro c hc hd
    exact .entered hread hd <| .does hc (.act _ (.assign x c.state rfl rfl)) <|
      .does hc (.act _ (.number 1 _)) (.finished _)
  obtain ⟨hkept, -, -, -, heach, -⟩ :=
    loops_end_for_their_own_reasons {} c code rfl (Nat.zero_le _)
  let c₁ : Context Recorder := (after c.deeper).shallower
  let c₂ : Context Recorder := (after c₁.deeper).shallower
  have hcode : Executes (Settings.limit {}) (.code code) c c₂ none :=
    (heach _ command 0 x [97, 98] rfl rfl c₂ none).2 <|
      .inl ⟨rfl, .more (hbody c rfl (by decide)) (.more (hbody c₁ rfl (by decide)) (.none c₂))⟩
  obtain ⟨hrunning, hdepth⟩ := hkept c₂ none hcode
  exact ⟨rfl, by decide, c₂, hcode, hrunning, hdepth, rfl, rfl⟩

end BlueNexus
