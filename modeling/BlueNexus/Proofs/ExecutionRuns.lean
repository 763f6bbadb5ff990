import BlueNexus.Proofs.NestedExecution
import BlueNexus.Proofs.StutteringRuns

/-!
# Nested work on the machine

The machine does nested work step by step, with what is left of the work around it in its tasks.
Where the work comes as a whole, there comes a run (`Executes.leads`), and a run that ends is made
of whole work up to a fault (`runs_split`). So code executed as a whole has the context and the
fault of its run on the machine (`executes_iff_ends`).
-/

namespace BlueNexus

open Machine

variable {σ : Type}

/-- A session whose machine has the tasks and stands in the context. -/
def Context.session (tasks : List Task) (c : Context σ) : Session σ :=
  ⟨⟨tasks, c.state⟩, c.host, c.calls⟩

/-- A machine with the tasks is about to do the work in the context, and then the rest. -/
def Work.Starts (limit : Nat) (c : Context σ) (tasks rest : List Task) : Work → Prop
  | .code ts => tasks = .code c.depth ts :: rest
  | .fragment f => step limit ⟨tasks, c.state⟩ = enterFragment limit c.depth f rest c.state
  | .guarded predicate command =>
    step limit ⟨tasks, c.state⟩ = enterIf limit c.depth predicate command rest rest c.state
  | .loop predicate command => tasks = .loop c.depth predicate command :: rest
  | .times n command => tasks = .times c.depth n command :: rest

namespace Work.Starts

variable {limit : Nat} {c : Context σ} {predicate command : Fragment} {tasks rest : List Task}

theorem step_loop (h : (Work.loop predicate command).Starts limit c tasks rest) (hc : c.Running) :
    step limit ⟨tasks, c.state⟩ = enterIf limit c.depth predicate command tasks rest c.state := by
  subst h
  exact step_eq_of_steps (.loop c.depth rest (entersIf_enterIf predicate command rest)) hc

theorem of_times {n : Nat} (h : (Work.times (n + 1) command).Starts limit c tasks rest)
    (hc : c.Running) :
    (Work.fragment command).Starts limit c tasks (.times c.depth n command :: rest) := by
  subst h
  exact step_eq_of_steps (.times c.depth n rest (enters_enterFragment command)) hc

/-- One execution of the command comes before the loop goes on. -/
theorem of_loop (h : (Work.loop predicate command).Starts limit c tasks rest) (hc : c.Running)
    (hp : Condition.holds limit c.state predicate = .ok true) :
    (Work.fragment command).Starts limit c tasks tasks :=
  (h.step_loop hc).trans (enterIf_of_entersIf (.holding hp (enters_enterFragment command)))

end Work.Starts

variable [Host σ] {limit steps : Nat} {w : Work} {c c' c₁ : Context σ} {r : Option Fault}
  {t : Token} {ts us : List Token} {tasks rest : List Task}

theorem Context.next_of_step {m : Machine} (h : step limit ⟨tasks, c.state⟩ = .silent m) :
    Session.Next limit (c.session tasks) ((c.put m.state).session m.tasks) :=
  congrArg (Session.move _) h

theorem Context.next_of_steps {m : Machine} (hc : c.Running)
    (h : Steps limit tasks c.state (.silent m)) :
    Session.Next limit (c.session tasks) ((c.put m.state).session m.tasks) :=
  Context.next_of_step (step_eq_of_steps h hc)

theorem Context.ends_of_step {e : Fault} (h : step limit ⟨tasks, c.state⟩ = .failed e c.state) :
    (c.session tasks).Ends limit (c.session tasks) (some e) :=
  ⟨.refl, Session.step_ended_iff.2 h⟩

theorem Token.Does.next (h : Token.Does limit ts c us c₁) (hc : c.Running) (rest : List Task) :
    Session.Next limit (c.session (.code c.depth ts :: rest))
      (c₁.session (.code c₁.depth us :: rest)) := by
  cases h with
  | act us h =>
    have hsteps := Steps.act c.depth us rest h
    exact congrArg (Session.move _) (step_eq_of_steps hsteps hc)
  | ask us h =>
    have hsteps := Steps.ask c.depth us rest h
    exact congrArg (Session.move _) (step_eq_of_steps hsteps hc)
  | snapshot us h =>
    have hsteps : Steps limit _ c.state _ := .snapshot c.depth us rest h
    exact congrArg (Session.move _) (step_eq_of_steps hsteps hc)
  | print o h =>
    have hsteps : Steps limit _ c.state _ := .print c.depth o rest h
    exact congrArg (Session.move _) (step_eq_of_steps hsteps hc)
  | printNothing o h =>
    have hsteps : Steps limit _ c.state _ := .printNothing c.depth o rest h
    exact congrArg (Session.move _) (step_eq_of_steps hsteps hc)

omit [Host σ] in
theorem Token.Misses.step_eq {e : Fault} (h : Token.Misses ts c.state e) (hc : c.Running)
    (rest : List Task) :
    step limit ⟨.code c.depth ts :: rest, c.state⟩ = .failed e c.state := by
  have hsteps : Steps limit (.code c.depth ts :: rest) c.state (.failed e c.state) := by
    cases h with
    | print o o' ts hg h => exact .printUnbound c.depth o o' ts rest hg h
    | push o ts h => exact .pushUnbound c.depth o ts rest h
  exact step_eq_of_steps hsteps hc

/-- There is nothing else that a first token comes to. -/
theorem Token.front (limit : Nat) (ts : List Token) (hc : c.Running) : Token.Front limit c ts := by
  have hsteps := steps_step limit ⟨[.code c.depth ts], c.state⟩
  generalize hm : step limit _ = m at hsteps
  cases hsteps with
  | halted h => exact absurd (hc.symm.trans h) Bool.false_ne_true
  | codeOver => exact .nil
  | act depth ts rest h => exact .does (.act ts h)
  | ask depth ts rest h => exact .does (.ask ts h)
  | snapshot depth ts rest h => exact .does (.snapshot ts h)
  | print depth o rest h => exact .does (.print o h)
  | printNothing depth o rest h => exact .does (.printNothing o h)
  | printUnbound depth o o' ts rest hg h => exact .misses (.print o o' ts hg h)
  | pushUnbound depth o ts rest h => exact .misses (.push o ts h)
  | block depth o ts rest h => exact .nests ts (.block _ _ h)
  | once depth o ts => exact .nests ts (.once _ _ _)
  | whilst predicate command _ depth o ts => exact .nests ts (.whilst predicate command _)
  | each predicate command _ depth o ts => exact .nests ts (.each predicate command _)

/-- A token with work within it comes to that work, and comes from the end of the work to what it
does with the result and to the tokens behind it. -/
theorem Form.Nests.begins {after : State → State} (h : t.form.Nests limit c.state w after)
    (hc : c.Running) (ts : List Token) (rest : List Task) :
    ∃ tasks mid, (c.session (.code c.depth (t :: ts) :: rest)).Reaches limit (c.session tasks) ∧
      w.Starts limit c tasks mid ∧
      ∀ c₁ : Context σ, c₁.Running → c₁.depth = c.depth →
        (c₁.session mid).Reaches limit
          ((c₁.put (after c₁.state)).session (.code c₁.depth ts :: rest)) := by
  obtain ⟨form, o⟩ := t
  cases h with
  | @block x body s h =>
    -- The step that takes up the block begins its body at once.
    refine ⟨_, .store x :: .code c.depth ts :: rest, .refl, ?_, fun c₁ hc₁ hd => ?_⟩
    · have hsteps : Steps limit (.code c.depth (⟨.block x body, o⟩ :: ts) :: rest) c.state _ :=
        .block c.depth o ts rest h (enters_enterFragment body)
      exact step_eq_of_steps hsteps hc
    · exact hd ▸ .single (Context.next_of_steps hc₁ (.store x _ c₁.state))
  | once predicate command s =>
    refine ⟨_, .code c.depth ts :: rest, .refl, ?_, fun c₁ _ hd => hd ▸ .refl⟩
    have hsteps : Steps limit _ c.state _ :=
      .once c.depth o ts rest (entersIf_enterIf predicate command _)
    exact step_eq_of_steps hsteps hc
  | whilst predicate command s =>
    have hsteps : Steps limit _ c.state _ := .whilst predicate command c.state c.depth o ts rest
    exact ⟨_, _, .single (Context.next_of_steps hc hsteps), rfl, fun c₁ _ hd => hd ▸ .refl⟩
  | each predicate command s =>
    have hsteps : Steps limit _ c.state _ := .each predicate command c.state c.depth o ts rest
    exact ⟨_, _, .single (Context.next_of_steps hc hsteps), rfl, fun c₁ _ hd => hd ▸ .refl⟩

/-- The machine comes from the tasks to the rest in the context `c'`, or to a fault there. -/
def Context.Leads (limit : Nat) (c : Context σ) (tasks : List Task) (c' : Context σ)
    (rest : List Task) : Option Fault → Prop
  | none => (c.session tasks).Reaches limit (c'.session rest)
  | some e => ∃ inner, (c.session tasks).Ends limit (c'.session inner) (some e)

theorem Context.Leads.of_reaches {tasks' : List Task}
    (hr : (c.session tasks).Reaches limit (c₁.session tasks'))
    (h : c₁.Leads limit tasks' c' rest r) : c.Leads limit tasks c' rest r := by
  cases r with
  | none => exact hr.trans h
  | some e =>
    obtain ⟨inner, he⟩ := h
    exact ⟨inner, he.of_reaches hr⟩

/-- Work that is executed as a whole is done by the machine, from wherever it starts. -/
theorem Executes.leads (h : Executes limit w c c' r) (hc : c.Running) (tasks rest : List Task)
    (hw : w.Starts limit c tasks rest) : c.Leads limit tasks c' rest r := by
  induction h generalizing tasks rest with
  | halted h => exact absurd (hc.symm.trans h) Bool.false_ne_true
  | finished c =>
    subst hw
    exact .single (Context.next_of_steps hc (.codeOver c.depth rest c.state))
  | does _ h hs ih =>
    subst hw
    exact .of_reaches (.single (h.next hc rest)) (ih (h.running hc) _ rest rfl)
  | misses _ h =>
    subst hw
    exact ⟨_, Context.ends_of_step (h.step_eq hc rest)⟩
  | nests _ h hwork hs ihw ihs =>
    subst hw
    obtain ⟨tasks, mid, hr, hstart, hback⟩ := h.begins hc _ rest
    have hw : Context.Leads _ _ _ _ mid none := (ihw hc tasks mid hstart).of_reaches hr
    have hc₁ := hwork.running hc
    exact .of_reaches (hw.trans (hback _ hc₁ hwork.depth_eq)) (ihs (h.running hc₁) _ rest rfl)
  | nestsFault _ h hwork ih =>
    subst hw
    obtain ⟨tasks, mid, hr, hstart, -⟩ := h.begins hc _ rest
    exact .of_reaches hr (ih hc tasks mid hstart)
  | unreadable h =>
    exact ⟨_, Context.ends_of_step (hw.trans (enterFragment_of_enters (.unreadable h)))⟩
  | tooDeep h hd =>
    exact ⟨_, Context.ends_of_step (hw.trans (enterFragment_of_enters (.tooDeep h hd)))⟩
  | entered h hd hs ih =>
    have hn := Context.next_of_step (hw.trans (enterFragment_of_enters (.entered h hd)))
    exact .of_reaches (.single hn) (ih hc _ rest rfl)
  | guardFault h =>
    exact ⟨_, Context.ends_of_step (hw.trans (enterIf_of_entersIf (.unreadable h)))⟩
  | passed h =>
    exact .single (Context.next_of_step (hw.trans (enterIf_of_entersIf (.passed h))))
  | holding h hs ih =>
    refine ih hc tasks rest (hw.trans (enterIf_of_entersIf (.holding h ?_)))
    exact enters_enterFragment _
  | loopGuardFault h =>
    exact ⟨_, Context.ends_of_step ((hw.step_loop hc).trans (enterIf_of_entersIf (.unreadable h)))⟩
  | loopOver h =>
    exact .single (Context.next_of_step ((hw.step_loop hc).trans (enterIf_of_entersIf (.passed h))))
  | again h hwork hs ihw ihs =>
    -- The loop itself stands behind its command, so the end of the command is the loop again.
    have hloop := ihw hc tasks tasks (hw.of_loop hc h)
    refine .of_reaches hloop (ihs (hwork.running hc) tasks rest ?_)
    rw [Work.Starts, hwork.depth_eq]
    exact hw
  | againFault h hwork ih => exact ih hc tasks tasks (hw.of_loop hc h)
  | timesOver command c =>
    subst hw
    exact .single (Context.next_of_steps hc (.timesOver c.depth command rest c.state))
  | times hwork hs ihw ihs =>
    have htimes := ihw hc tasks _ (hw.of_times hc)
    refine .of_reaches htimes (ihs (hwork.running hc) _ rest ?_)
    rw [Work.Starts, hwork.depth_eq]
  | timesFault n hwork ih =>
    have htimes := ih hc tasks _ (hw.of_times hc)
    exact htimes

/-- A run of so many steps is the whole work and then a run of the rest, or the work ends it by a
fault. -/
inductive Context.Splits (limit steps : Nat) (w : Work) (c : Context σ) (rest : List Task)
    (z : Session σ) : Option Fault → Prop
  | fault {c' e inner} (h : Executes limit w c c' (some e)) (hz : c'.session inner = z) :
      Splits limit steps w c rest z (some e)
  | done {c' k r} (h : Executes limit w c c' none) (hk : k < steps)
      (hrun : (c'.session rest).run limit k = some (z, r)) : Splits limit steps w c rest z r

/-- A run that ends starts with the whole work, whatever context it starts in. -/
def Work.SplitsRuns (σ : Type) [Host σ] (limit steps : Nat) (w : Work) : Prop :=
  ∀ (c : Context σ) tasks rest z r, c.Running → w.Starts limit c tasks rest →
    (c.session tasks).run limit steps = some (z, r) → c.Splits limit steps w rest z r

theorem Context.eq_of_failed {e : Fault} {x : Session σ × Option Fault}
    (h : step limit ⟨tasks, c.state⟩ = .failed e c.state)
    (hx : (c.session tasks).run limit steps = some x) : x = (c.session tasks, some e) := by
  have hend : (c.session tasks).step limit = .ended (c.session tasks) (some e) :=
    Session.step_ended_iff.2 h
  cases steps with
  | zero => cases hx
  | succ k =>
    rw [Session.run.eq_2, hend] at hx
    exact (Option.some.inj hx).symm

private theorem splitsRuns_fragment (f : Fragment)
    (ih : ∀ k < steps, ∀ ts, (Work.code ts).SplitsRuns σ limit k) :
    (Work.fragment f).SplitsRuns σ limit steps := by
  intro c tasks rest z r hc hw hrun
  have henter : Enters limit c.depth f rest c.state (step limit ⟨tasks, c.state⟩) := by
    rw [Work.Starts] at hw
    exact hw ▸ enters_enterFragment f
  generalize hm : step limit ⟨tasks, c.state⟩ = m at henter
  cases henter with
  | unreadable h =>
    obtain ⟨rfl, rfl⟩ := Prod.mk.inj (Context.eq_of_failed hm hrun)
    exact .fault (.unreadable h) rfl
  | tooDeep h hd =>
    obtain ⟨rfl, rfl⟩ := Prod.mk.inj (Context.eq_of_failed hm hrun)
    exact .fault (.tooDeep h hd) rfl
  | @entered ts h hd =>
    obtain ⟨k, hk, hrun⟩ := (Context.next_of_step hm).run hrun
    cases ih k hk ts c.deeper _ rest z r hc rfl hrun with
    | fault hs hz => exact .fault (.entered h hd hs) hz
    | done hs hj hrun => exact .done (.entered h hd hs) (Nat.lt_trans hj hk) hrun

/-- Where the machine asks whether a predicate holds, the run ends there, goes on past the command,
or begins the command. -/
theorem Context.run_of_enterIf {predicate command : Fragment} {past : List Task} {z : Session σ}
    (h : step limit ⟨tasks, c.state⟩ = enterIf limit c.depth predicate command rest past c.state)
    (hrun : (c.session tasks).run limit steps = some (z, r)) :
    (∃ e, predicate.tokens limit = .error e ∧ z = c.session tasks ∧ r = some e) ∨
      (Condition.holds limit c.state predicate = .ok false ∧
        ∃ k < steps, (c.session past).run limit k = some (z, r)) ∨
      Condition.holds limit c.state predicate = .ok true ∧
        (Work.fragment command).Starts limit c tasks rest := by
  have henter : EntersIf limit c.depth predicate command rest past c.state
      (step limit ⟨tasks, c.state⟩) := by
    rw [h]
    exact entersIf_enterIf predicate command past
  generalize hm : step limit ⟨tasks, c.state⟩ = m at henter
  cases henter with
  | @unreadable e hp =>
    obtain ⟨hz, hr⟩ := Prod.mk.inj (Context.eq_of_failed hm hrun)
    exact .inl ⟨e, hp, hz, hr⟩
  | passed hp => exact .inr (.inl ⟨hp, (Context.next_of_step hm).run hrun⟩)
  | holding hp he => exact .inr (.inr ⟨hp, hm.trans (enterFragment_of_enters he).symm⟩)

private theorem splitsRuns_guarded {predicate command : Fragment}
    (hcommand : (Work.fragment command).SplitsRuns σ limit steps) :
    (Work.guarded predicate command).SplitsRuns σ limit steps := by
  intro c tasks rest z r hc hw hrun
  rcases Context.run_of_enterIf hw hrun with ⟨e, h, rfl, rfl⟩ | ⟨h, k, hk, hrun⟩ | ⟨h, hstart⟩
  · exact .fault (.guardFault h) rfl
  · exact .done (.passed h) hk hrun
  · cases hcommand c tasks rest z r hc hstart hrun with
    | fault hs hz => exact .fault (.holding h hs) hz
    | done hs hj hrun => exact .done (.holding h hs) hj hrun

private theorem splitsRuns_loop {predicate command : Fragment}
    (hcommand : (Work.fragment command).SplitsRuns σ limit steps)
    (ih : ∀ k < steps, (Work.loop predicate command).SplitsRuns σ limit k) :
    (Work.loop predicate command).SplitsRuns σ limit steps := by
  intro c tasks rest z r hc hw hrun
  rcases Context.run_of_enterIf (hw.step_loop hc) hrun with
    ⟨e, h, rfl, rfl⟩ | ⟨h, k, hk, hrun⟩ | ⟨h, hstart⟩
  · exact .fault (.loopGuardFault h) rfl
  · exact .done (.loopOver h) hk hrun
  · cases hcommand c tasks tasks z r hc hstart hrun with
    | fault hs hz => exact .fault (.againFault h hs) hz
    | @done c₁ k r hs hk hrun =>
      have hagain : (Work.loop predicate command).Starts limit c₁ tasks rest := by
        rw [Work.Starts, hs.depth_eq]
        exact hw
      cases ih k hk c₁ tasks rest z r (hs.running hc) hagain hrun with
      | fault hs' hz => exact .fault (.again h hs hs') hz
      | done hs' hj hrun => exact .done (.again h hs hs') (Nat.lt_trans hj hk) hrun

private theorem splitsRuns_times {n : Nat} {command : Fragment}
    (hcommand : (Work.fragment command).SplitsRuns σ limit steps)
    (ih : ∀ k < steps, ∀ n, (Work.times n command).SplitsRuns σ limit k) :
    (Work.times n command).SplitsRuns σ limit steps := by
  intro c tasks rest z r hc hw hrun
  cases n with
  | zero =>
    subst hw
    have hn : Session.Next limit (c.session _) _ :=
      Context.next_of_steps hc (.timesOver c.depth command rest c.state)
    obtain ⟨k, hk, hrun⟩ := hn.run hrun
    exact .done (.timesOver command c) hk hrun
  | succ n =>
    cases hcommand c tasks _ z r hc (hw.of_times hc) hrun with
    | fault hs hz => exact .fault (.timesFault n hs) hz
    | @done c₁ k r hs hk hrun =>
      have hstart : (Work.times n command).Starts limit c₁ (.times c.depth n command :: rest)
          rest := by
        rw [Work.Starts, hs.depth_eq]
      cases ih k hk n c₁ _ rest z r (hs.running hc) hstart hrun with
      | fault hs' hz => exact .fault (.times hs hs') hz
      | done hs' hj hrun => exact .done (.times hs hs') (Nat.lt_trans hj hk) hrun

private theorem splitsRuns_code
    (hnests : ∀ k ≤ steps, ∀ (f : Form) s w after, f.Nests limit s w after →
      w.SplitsRuns σ limit k)
    (ih : ∀ k < steps, ∀ ts, (Work.code ts).SplitsRuns σ limit k) :
    (Work.code ts).SplitsRuns σ limit steps := by
  intro c tasks rest z r hc hw hrun
  subst hw
  cases Token.front limit ts hc with
  | nil =>
    have hn : Session.Next limit (c.session _) _ :=
      Context.next_of_steps hc (.codeOver c.depth rest c.state)
    obtain ⟨k, hk, hrun⟩ := hn.run hrun
    exact .done (.finished c) hk hrun
  | @does _ us c₁ h =>
    obtain ⟨k, hk, hrun⟩ := (h.next hc rest).run hrun
    cases ih k hk us c₁ _ rest z r (h.running hc) rfl hrun with
    | fault hs hz => exact .fault (.does hc h hs) hz
    | done hs hj hrun => exact .done (.does hc h hs) (Nat.lt_trans hj hk) hrun
  | misses h =>
    obtain ⟨rfl, rfl⟩ := Prod.mk.inj (Context.eq_of_failed (h.step_eq hc rest) hrun)
    exact .fault (.misses hc h) rfl
  | @nests t w after us h =>
    obtain ⟨tasks, mid, hr, hstart, hback⟩ := h.begins hc us rest
    obtain ⟨k, hk, hrun⟩ := hr.run hrun
    cases hnests k hk _ _ w after h c tasks mid z r hc hstart hrun with
    | fault hs hz => exact .fault (.nestsFault hc h hs) hz
    | @done c₁ j r hs hj hrun =>
      have hc₁ := hs.running hc
      obtain ⟨i, hi, hrun⟩ := (hback c₁ hc₁ hs.depth_eq).run hrun
      have hlt : i < steps := Nat.lt_of_le_of_lt hi (Nat.lt_of_lt_of_le hj hk)
      cases ih i hlt us (c₁.put (after c₁.state)) _ rest z r (h.running hc₁) rfl hrun with
      | fault hs' hz => exact .fault (.nests hc h hs hs') hz
      | done hs' hj' hrun => exact .done (.nests hc h hs hs') (Nat.lt_trans hj' hlt) hrun

theorem runs_split (limit steps : Nat) (w : Work) : w.SplitsRuns σ limit steps := by
  induction steps using Nat.strongRecOn generalizing w with
  | _ steps ih =>
    -- Work may start with the first step of the work within it, so for as many steps fragments come
    -- first and code comes last.
    have hfragment : ∀ k ≤ steps, ∀ f, (Work.fragment f).SplitsRuns σ limit k := fun k hk f =>
      splitsRuns_fragment f fun j hj ts => ih j (Nat.lt_of_lt_of_le hj hk) (.code ts)
    have hguarded : ∀ k ≤ steps, ∀ p f, (Work.guarded p f).SplitsRuns σ limit k := fun k hk p f =>
      splitsRuns_guarded (hfragment k hk f)
    have hloop : ∀ k ≤ steps, ∀ p f, (Work.loop p f).SplitsRuns σ limit k := fun k hk p f =>
      splitsRuns_loop (hfragment k hk f) fun j hj => ih j (Nat.lt_of_lt_of_le hj hk) (.loop p f)
    have htimes : ∀ k ≤ steps, ∀ n f, (Work.times n f).SplitsRuns σ limit k := fun k hk n f =>
      splitsRuns_times (hfragment k hk f) fun j hj n => ih j (Nat.lt_of_lt_of_le hj hk) (.times n f)
    cases w with
    | code ts =>
      refine splitsRuns_code (fun k hk f s w after h => ?_) fun k hk ts => ih k hk (.code ts)
      cases h with
      | block x s h => exact hfragment k hk _
      | once predicate command s => exact hguarded k hk predicate command
      | whilst predicate command s => exact hloop k hk predicate command
      | each predicate command s => exact htimes k hk _ command
    | fragment f => exact hfragment steps (Nat.le_refl steps) f
    | guarded p f => exact hguarded steps (Nat.le_refl steps) p f
    | loop p f => exact hloop steps (Nat.le_refl steps) p f
    | times n f => exact htimes steps (Nat.le_refl steps) n f

omit [Host σ] in
theorem Context.eq_of_session_eq {inner : List Task} (h : c₁.session inner = c'.session tasks)
    (hd : c₁.depth = c'.depth) : c₁ = c' := by
  obtain ⟨depth, s, host, calls⟩ := c₁
  cases hd
  cases h
  rfl

private theorem Executes.of_halted (hh : c.state.halted = true) :
    Executes limit (.code ts) c c' r ↔ c' = c ∧ r = none := by
  have hc : ¬c.Running := fun hc => Bool.false_ne_true (hc.symm.trans hh)
  constructor
  · intro h
    cases h with
    | halted | finished => exact ⟨rfl, rfl⟩
    | does h | misses h | nests h | nestsFault h => exact absurd h hc
  · rintro ⟨rfl, rfl⟩
    exact .halted hh

@[simp] theorem Executes.of_nil : Executes limit (.code []) c c' r ↔ c' = c ∧ r = none := by
  constructor
  · intro h
    cases h with
    | halted | finished => exact ⟨rfl, rfl⟩
    | does _ h => cases h
    | misses _ h => cases h
  · rintro ⟨rfl, rfl⟩
    exact .finished c'

/-- Code executed as a whole is a run of the machine to its end: the state, the host, its calls and
the fault are the same. -/
theorem executes_iff_ends :
    Executes limit (.code ts) c c' r ↔
      c'.depth = c.depth ∧
        ∃ tasks, (c.session [.code c.depth ts]).Ends limit (c'.session tasks) r := by
  by_cases hh : c.state.halted = true
  · simp only [Executes.of_halted hh, Session.ends_of_halted (s := c.session _) hh]
    constructor
    · rintro ⟨rfl, rfl⟩
      exact ⟨rfl, _, rfl, rfl⟩
    · rintro ⟨hd, tasks, hz, rfl⟩
      exact ⟨Context.eq_of_session_eq hz hd, rfl⟩
  have hc : c.Running := Bool.eq_false_iff.2 hh
  constructor
  · intro h
    refine ⟨h.depth_eq, ?_⟩
    have hl := h.leads hc _ [] rfl
    cases r with
    | none => exact ⟨[], (Session.ends_of_no_tasks c'.state c'.host c'.calls).of_reaches hl⟩
    | some e => exact hl
  · rintro ⟨hd, tasks, hends⟩
    obtain ⟨steps, hrun⟩ := Session.exists_run_of_ends hends
    generalize hz : c'.session tasks = z at hrun
    cases runs_split limit steps (.code ts) c _ [] z r hc rfl hrun with
    | fault h hz' =>
      exact Context.eq_of_session_eq (hz'.trans hz.symm) (h.depth_eq.trans hd.symm) ▸ h
    | @done c₁ k r h hk hrun =>
      -- Nothing stands behind the code, so the run ends with it.
      have hover : (c₁.session []).Ends limit (c₁.session []) none :=
        Session.ends_of_no_tasks c₁.state c₁.host c₁.calls
      obtain ⟨j, hj⟩ := Session.exists_run_of_ends hover
      obtain ⟨hz', rfl⟩ := Prod.mk.inj (Session.run_unique hj hrun)
      exact Context.eq_of_session_eq (hz'.trans hz.symm) (h.depth_eq.trans hd.symm) ▸ h

/-- Code makes one thing of a context. -/
theorem Executes.unique {c'' : Context σ} {r' : Option Fault}
    (h : Executes limit (.code ts) c c' r) (h' : Executes limit (.code ts) c c'' r') :
    c' = c'' ∧ r = r' := by
  obtain ⟨hd, tasks, he⟩ := executes_iff_ends.1 h
  obtain ⟨hd', tasks', he'⟩ := executes_iff_ends.1 h'
  obtain ⟨m, hm⟩ := Session.exists_run_of_ends he
  obtain ⟨n, hn⟩ := Session.exists_run_of_ends he'
  obtain ⟨hz, hr⟩ := Prod.mk.inj (Session.run_unique hm hn)
  exact ⟨Context.eq_of_session_eq hz (hd.trans hd'.symm), hr⟩

/-- A program that prints and ends well has a report of what its tokens have done, and no more. -/
theorem Executes.report {settings : Settings} {source : Text} {host : σ}
    (h : Executes settings.limit (.code ts) ⟨0, {}, host, []⟩ c' none)
    (ht : programTokens settings.limit source = .ok ts) (hp : c'.state.printed ≠ []) :
    ∃ steps report, runProgram settings source host steps = some report ∧ report.fault = none ∧
      report.state = c'.state ∧ report.calls = c'.calls.reverse := by
  obtain ⟨-, tasks, hends⟩ := executes_iff_ends.1 h
  obtain ⟨steps, hrun⟩ := exists_runProgram_iff.2 (.inr ⟨ts, _, none, ht, hends, rfl⟩)
  have hnotice : (c'.session tasks).conclude settings none = c'.session tasks :=
    if_neg fun hn => hp hn.2
  refine ⟨steps, _, hrun, rfl, ?_, ?_⟩
  · rw [Session.report, hnotice]
    rfl
  · rw [Session.report, hnotice]
    rfl

/-- The execution of the tokens comes, in its course or at its end, to the state, the host and the
calls of the other context. -/
def Context.ComesTo (limit : Nat) (ts : List Token) (c c' : Context σ) : Prop :=
  ∃ tasks, (c.session [.code c.depth ts]).Reaches limit (c'.session tasks)

/-- Code with tasks behind it ends with a fault of its own, or it ends well and then they do. -/
theorem ends_behind_iff (hc : c.Running) (hd : c'.depth = c.depth) :
    (∃ tasks, (c.session (.code c.depth ts :: rest)).Ends limit (c'.session tasks) r) ↔
      (∃ e, r = some e ∧ Executes limit (.code ts) c c' (some e)) ∨
        ∃ c₁, Executes limit (.code ts) c c₁ none ∧
          ∃ tasks, (c₁.session rest).Ends limit (c'.session tasks) r := by
  constructor
  · rintro ⟨tasks, hends⟩
    obtain ⟨steps, hrun⟩ := Session.exists_run_of_ends hends
    generalize hz : c'.session tasks = z at hrun
    cases runs_split limit steps (.code ts) c _ rest z r hc rfl hrun with
    | @fault c₁ e inner h hz' =>
      have he : c₁ = c' := Context.eq_of_session_eq (hz'.trans hz.symm) (h.depth_eq.trans hd.symm)
      exact .inl ⟨e, rfl, he ▸ h⟩
    | @done c₁ k r h hk hrun =>
      subst hz
      exact .inr ⟨c₁, h, tasks, Session.ends_of_run hrun⟩
  · rintro (⟨e, rfl, h⟩ | ⟨c₁, h, tasks, hends⟩)
    · exact h.leads hc _ rest rfl
    · have hr : (c.session _).Reaches limit (c₁.session rest) := h.leads hc _ rest rfl
      exact ⟨tasks, hends.of_reaches hr⟩

/-- Where code with tasks behind it comes to, the code comes to or they do after its end. -/
theorem reaches_behind_iff (hc : c.Running) :
    (∃ tasks, (c.session (.code c.depth ts :: rest)).Reaches limit (c'.session tasks)) ↔
      c.ComesTo limit ts c' ∨
        ∃ c₁, Executes limit (.code ts) c c₁ none ∧
          ∃ tasks, (c₁.session rest).Reaches limit (c'.session tasks) := by
  constructor
  · rintro ⟨tasks, hr⟩
    have hr' : ((c.session [.code c.depth ts]).mapMachine (.before rest)).Reaches limit
        (c'.session tasks) := hr
    rcases hr'.of_before with ⟨⟨⟨inner, s⟩, host, calls⟩, hy, hz⟩ | ⟨y, hy, hr'⟩
    · cases hz
      exact .inl ⟨inner, hy⟩
    · exact .inr ⟨⟨c.depth, y.machine.state, y.host, y.calls⟩,
        executes_iff_ends.2 ⟨rfl, y.machine.tasks, hy⟩, tasks, hr'⟩
  · rintro (⟨tasks, hr⟩ | ⟨c₁, h, tasks, hr'⟩)
    · exact ⟨tasks ++ rest, hr.before rest⟩
    · have hr : (c.session _).Reaches limit (c₁.session rest) := h.leads hc _ rest rfl
      exact ⟨tasks, hr.trans hr'⟩

namespace Session

variable {s t : Session σ} {R : Session σ → Session σ → Prop}

omit [Host σ] in
theorem Alike.eq_session (h : s.Alike t) : (∃ tasks, s = c.session tasks) ↔
    ∃ tasks, t = c.session tasks := by
  obtain ⟨hs, hh, hc⟩ := h
  obtain ⟨⟨tasks, state⟩, host, calls⟩ := t
  obtain ⟨⟨tasks', state'⟩, host', calls'⟩ := s
  simp_all [Context.session]

/-- Sessions that run side by side come to the same contexts. -/
theorem Beside.reaches_iff (hR : SideBySide limit R) (h : Beside limit R s t) :
    (∃ tasks, s.Reaches limit (c.session tasks)) ↔ ∃ tasks, t.Reaches limit (c.session tasks) := by
  constructor
  · rintro ⟨tasks, hr⟩
    obtain ⟨z, hz, hb⟩ := h.reaches hR hr
    obtain ⟨tasks', rfl⟩ := hb.alike.eq_session.1 ⟨tasks, rfl⟩
    exact ⟨tasks', hz⟩
  · rintro ⟨tasks, hr⟩
    obtain ⟨y, hy, hb⟩ := h.reaches_back hR hr
    obtain ⟨tasks', rfl⟩ := hb.alike.eq_session.2 ⟨tasks, rfl⟩
    exact ⟨tasks', hy⟩

/-- Sessions that run side by side end in the same contexts. -/
theorem Beside.ends_iff (hR : SideBySide limit R) (h : Beside limit R s t) :
    (∃ tasks, s.Ends limit (c.session tasks) r) ↔ ∃ tasks, t.Ends limit (c.session tasks) r := by
  constructor
  · rintro ⟨tasks, he⟩
    obtain ⟨z, hz, ha⟩ := h.ends hR he
    obtain ⟨tasks', rfl⟩ := ha.eq_session.1 ⟨tasks, rfl⟩
    exact ⟨tasks', hz⟩
  · rintro ⟨tasks, he⟩
    obtain ⟨y, hy, ha⟩ := h.ends_back hR he
    obtain ⟨tasks', rfl⟩ := ha.eq_session.2 ⟨tasks, rfl⟩
    exact ⟨tasks', hy⟩

end Session

end BlueNexus
