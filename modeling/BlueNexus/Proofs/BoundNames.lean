import BlueNexus.Host.Recorder
import BlueNexus.Proofs.FaultState
import BlueNexus.Proofs.Invariants

/-!
# The bound names

No step unbinds a name, so the bound names only grow along a run (`Session.Reaches.names_subset`).
A run ends with the fault of an undefined variable only where a token is about to print or to push
it, and then the variable has never been bound. All other tokens that name an unbound variable are
passed over (`Token.Mentions.reaches`), and in a predicate it counts as zero
(`bound_names_grow`).
-/

namespace BlueNexus

open Machine

/-- The names that are bound, in their order. -/
def Bindings.names (t : Bindings) : List Name := t.entries.map (·.1)

namespace Bindings

variable {t t' : Bindings} {x : Name}

theorem get?_eq_none_iff : t.get? x = none ↔ x ∉ t.names := by
  simp only [get?, names, Option.map_eq_none_iff, List.find?_eq_none, decide_eq_true_eq,
    List.mem_map, not_exists, not_and]

theorem names_subset_iff : t.names ⊆ t'.names ↔ ∀ x, t'.get? x = none → t.get? x = none := by
  simp only [get?_eq_none_iff, not_imp_not]
  rfl

theorem names_subset_set (x : Name) (v : Value) (t : Bindings) : t.names ⊆ (t.set x v).names := by
  refine names_subset_iff.2 fun y hy => ?_
  rw [get?_set] at hy
  split at hy
  · cases hy
  · exact hy

theorem Stores.names_subset (h : t.Stores x t') : t.names ⊆ t'.names := by
  cases h with
  | nothing => exact List.Subset.refl _
  | scalar n => exact names_subset_set x _ t

theorem names_subset_init (x : Name) (v : Value) (t : Bindings) : t.names ⊆ (t.init x v).names := by
  refine names_subset_iff.2 fun y hy => ?_
  rw [get?_init] at hy
  split at hy
  · cases hy
  · exact hy

theorem names_subset_update (x : Name) (f : Value → Value) (t : Bindings) :
    t.names ⊆ (t.update x f).names := by
  refine names_subset_iff.2 fun y hy => ?_
  rw [get?_update] at hy
  split at hy
  · exact Option.map_eq_none_iff.1 hy
  · exact hy

@[simp] theorem update_of_not_mem (hx : x ∉ t.names) (f : Value → Value) : t.update x f = t := by
  simp [update, get?_eq_none_iff.2 hx]

end Bindings

open Bindings

variable {limit depth : Nat} {x : Name} {s s' : State} {tasks rest past : List Task} {e : Fault}
  {t : Token} {ts us : List Token}

private theorem State.names_subset_drop (param : Text) (s : State) :
    s.variables.names ⊆ (s.drop param).variables.names := by
  obtain ⟨stack, h⟩ | ⟨x, -, h⟩ := s.drop_cases param
  · rw [h]
    exact List.Subset.refl _
  · rw [h]
    exact names_subset_update x _ _

theorem Form.Acts.names_subset {f : Form} (h : f.Acts limit s s') :
    s.variables.names ⊆ s'.variables.names := by
  cases h with
  | @pushVariable y s v h =>
    cases v.front? with
    | none => exact List.Subset.refl _
    | some n => exact names_subset_update y _ _
  | copy y => exact (s.stores_copyInto y).names_subset
  | assign y => exact names_subset_set y _ _
  | append y | expression y =>
    exact List.Subset.trans (names_subset_init y _ _) (names_subset_update y _ _)
  | drop param => exact s.names_subset_drop param
  | rotate y => exact names_subset_update y _ _
  | _ => exact List.Subset.refl _

theorem Form.Asks.names_subset {f : Form} {resume : Int64 → State} (h : f.Asks limit s resume)
    (n : Int64) : s.variables.names ⊆ (resume n).variables.names := by
  cases h with
  | pushInput => exact List.Subset.refl _
  | input y => exact names_subset_set y _ _
  | appendInput y =>
    exact (Assignment.stores_appendInput y n s.variables).names_subset

theorem Glyph.Prints.names_subset {g : Glyph} {text : Option Text} (h : g.Prints ts s text us s') :
    s.variables.names ⊆ s'.variables.names := by
  cases h with
  | front => exact names_subset_update _ _ _
  | _ => exact List.Subset.refl _

theorem Machine.invariant_bound (limit : Nat) (x : Name) :
    Invariant limit (fun _ => True) (fun _ => True) fun s => x ∈ s.variables.names where
  carried _ _ _ := trivial
  read _ _ _ _ := trivial
  fused _ _ := trivial
  acts _ hs h := h.names_subset hs
  asks _ hs h n := h.names_subset n hs
  prints hs h := h.names_subset hs
  printed _ hs := hs
  stores x hs := (State.stores_popInto x _).names_subset hs

/-- No condition is on the tasks. -/
theorem Task.meets_true (t : Task) : t.Meets (fun _ => True) fun _ => True := by
  cases t with
  | code => exact fun _ _ => trivial
  | store | loop | times => trivial

section Runs

variable {σ : Type} [Host σ] {a z : Session σ}

/-- The bound names only grow along a run. -/
theorem Session.Reaches.names_subset (h : a.Reaches limit z) :
    a.machine.state.variables.names ⊆ z.machine.state.variables.names := by
  intro x hx
  have hbound := h.invariant (Q := fun _ => True)
    (fun m hm => (steps_step limit m).meets (invariant_bound limit x) hm.tasks hm.state)
    ⟨fun t _ => t.meets_true, hx⟩
  exact hbound.state

end Runs

theorem Form.Reads.isSyntax {offset : Nat} {breaks : List Nat} {c : Char} {r : Text}
    (h : Reads limit breaks offset c r (.error e)) : e.isSyntax = true := by
  cases h <;> rfl

theorem Fragment.isSyntax_of_tokens {f : Fragment} (h : f.tokens limit = .error e) :
    e.isSyntax = true := by
  obtain ⟨_, _, _, -, hreads⟩ := exists_flaw h
  exact hreads.isSyntax

theorem Machine.Raises.misses (h : Raises limit tasks s e) (he : e.isSyntax = false) :
    ∃ depth ts rest, tasks = .code depth ts :: rest ∧ Token.Misses ts s e := by
  cases h with
  | unbound depth rest h => exact ⟨depth, _, rest, rfl, h⟩
  | predicate _ _ hp => cases he.symm.trans (Fragment.isSyntax_of_tokens hp)
  | fragment _ hf => cases he.symm.trans (Fragment.isSyntax_of_tokens hf)
  | tooDeep => cases he

/-- The first tokens name the variable, but neither print nor push it. -/
inductive Token.Mentions (x : Name) : List Token → List Token → Prop
  | bare (o ts) : Mentions x (⟨.variable x, o⟩ :: ts) ts
  | rotate (o ts) : Mentions x (⟨.rotate x, o⟩ :: ts) ts
  | drop (o ts) : Mentions x (⟨.drop [x.letter], o⟩ :: ts) ts
  | snapshot (o ts) : Mentions x (⟨.debug ['_', 'v', 'a', 'r', '=', x.letter], o⟩ :: ts) ts
  /-- A push marker that is not fused, as inside a body. -/
  | marked (o o' ts) : Mentions x (⟨.glyph .push, o⟩ :: ⟨.variable x, o'⟩ :: ts) ts
  /-- A loop over the elements of the variable. -/
  | each {predicate : Fragment} (command o ts) (h : Condition.target? predicate.text = some x) :
      Mentions x (⟨.conditional .each predicate command, o⟩ :: ts) ts

theorem Fragment.ne_pushVariable_of_tokens {f : Fragment} (h : f.tokens limit = .ok ts)
    (ht : t ∈ ts) (x : Name) : t.form ≠ .pushVariable x := by
  obtain ⟨_, _, _, _, -, -, hreads⟩ := (scan_of_tokens h).of_mem ht
  intro hform
  rw [hform] at hreads
  cases hreads

private theorem State.rotate_of_not_mem (hx : x ∉ s.variables.names) : s.rotate x = s := by
  rw [State.rotate, update_of_not_mem hx]

private theorem State.drop_of_not_mem (hx : x ∉ s.variables.names) : s.drop [x.letter] = s := by
  rw [State.drop_letter, update_of_not_mem hx]

private theorem not_shows_of_not_mem (hx : x ∉ s.variables.names) (n : Notice) :
    ¬Form.Shows (.debug ['_', 'v', 'a', 'r', '=', x.letter]) s n := by
  generalize hf : Form.debug ['_', 'v', 'a', 'r', '=', x.letter] = form
  intro h
  cases h with
  | stack => simp at hf
  | @value y s v hy =>
    have hletter : x.letter = y.letter := by simpa using hf
    have hxy : x = y := by
      cases x
      cases y
      cases hletter
      rfl
    rw [get?_eq_none_iff.2 (hxy ▸ hx)] at hy
    cases hy

section Runs

variable {σ : Type} [Host σ] {c : Context σ}

/-- Tokens that do no more than name an unbound variable are passed over. Neither the state nor the
host hears of them. -/
theorem Token.Mentions.reaches (h : Token.Mentions x ts us) (hc : c.Running)
    (hx : x ∉ c.state.variables.names) (rest : List Task) :
    (c.session (.code c.depth ts :: rest)).Reaches limit
      (c.session (.code c.depth us :: rest)) := by
  have silent : ∀ {t : Token} {ts : List Token} {s : State}, t.form.Acts limit c.state s →
      s = c.state → Session.Next limit (c.session (.code c.depth (t :: ts) :: rest))
        (c.session (.code c.depth ts :: rest)) := by
    rintro t ts s h rfl
    exact Context.next_of_steps hc (.act c.depth ts rest h)
  cases h with
  | bare o ts => exact .single (silent (.mention x c.state) rfl)
  | rotate o ts => exact .single (silent (.rotate x c.state) (State.rotate_of_not_mem hx))
  | drop o ts => exact .single (silent (.drop _ c.state) (State.drop_of_not_mem hx))
  | snapshot o ts => exact .single (silent (.debug (not_shows_of_not_mem hx)) rfl)
  | marked o o' ts =>
    have hmarker : (Form.glyph .push).Acts limit c.state _ := .operate c.state (by simp)
    exact .head (silent hmarker rfl) (.single (silent (.mention x c.state) rfl))
  | @each predicate command o ts h =>
    have hcount : Condition.elements c.state predicate = 0 := by
      simp [Condition.elements, h, get?_eq_none_iff.2 hx]
    have hloop := Context.next_of_steps hc
      (.each predicate command c.state c.depth o us rest : Steps limit _ _ _)
    rw [hcount] at hloop
    exact .head hloop (.single (Context.next_of_steps hc (.timesOver c.depth command _ c.state)))

end Runs

namespace Condition

theorem judge_assign_zero (hx : x ∉ s.variables.names) (ts : List Token) :
    judge (s.assign x (.scalar 0)) ts = judge s ts := by
  have hoperand : ∀ form, operand? (s.assign x (.scalar 0)) form = operand? s form := by
    intro form
    cases form with
    | «variable» y =>
      simp only [operand?, State.assign, get?_set]
      split
      · next hxy =>
        subst hxy
        rw [get?_eq_none_iff.2 hx]
        rfl
      · rfl
    | glyph g => cases g <;> rfl
    | _ => rfl
  simp only [judge, hoperand]

end Condition

/-- Where the predicate can be read, the task that asks whether it holds leaves the state as it is,
and a fault is about the command. -/
theorem Machine.Checks.leads {predicate command : Fragment}
    (h : Checks tasks depth predicate command) (hp : predicate.tokens limit = .ok ts) :
    (step limit ⟨tasks, s⟩).Leads (·.state = s) fun e =>
      command.tokens limit = .error e ∨ e = .nestingTooDeep command.offset limit := by
  have enters : ∀ {depth rest m}, Enters limit depth command rest s m →
      m.Leads (·.state = s) fun e =>
        command.tokens limit = .error e ∨ e = .nestingTooDeep command.offset limit := by
    intro depth rest m h
    cases h with
    | unreadable he => exact .inl he
    | tooDeep => exact .inr rfl
    | entered => rfl
  have entersIf : ∀ {depth rest past m}, EntersIf limit depth predicate command rest past s m →
      m.Leads (·.state = s) fun e =>
        command.tokens limit = .error e ∨ e = .nestingTooDeep command.offset limit := by
    intro depth rest past m h
    cases h with
    | unreadable he => cases hp.symm.trans he
    | passed => rfl
    | holding _ he => exact enters he
  have hsteps := steps_step limit ⟨tasks, s⟩
  generalize step limit ⟨tasks, s⟩ = m at hsteps
  cases h with
  | once =>
    cases hsteps with
    | halted => trivial
    | act _ _ _ h | ask _ _ _ h | snapshot _ _ _ h => cases h
    | once _ _ _ _ h => exact entersIf h
  | loop =>
    cases hsteps with
    | halted => trivial
    | loop _ _ h => exact entersIf h

/-- The bound names only grow along a run, up to its report. The fault of an undefined variable is
raised where a token is about to print or push it, and the variable has been unbound throughout. All
else that names an unbound variable passes over it, or counts it as zero, and leaves the state as it
is. -/
theorem bound_names_grow {σ : Type} [Host σ] (settings : Settings) (source : Text) (host : σ) :
    (∀ ts a z, programTokens settings.limit source = .ok ts →
      (Session.start ts host).Reaches settings.limit a → a.Reaches settings.limit z →
      a.machine.state.variables.names ⊆ z.machine.state.variables.names) ∧
    (∀ steps report, runProgram settings source host steps = some report →
      (∀ ts z, programTokens settings.limit source = .ok ts →
        (Session.start ts host).Reaches settings.limit z →
        z.machine.state.variables.names ⊆ report.state.variables.names) ∧
      ∀ o x, report.fault = some (.undefinedVariable o x) →
        x ∉ report.state.variables.names ∧
        ∃ ts last depth us rest, programTokens settings.limit source = .ok ts ∧
          (Session.start ts host).Reaches settings.limit last ∧
          last.machine.tasks = .code depth us :: rest ∧
          Token.Misses us last.machine.state (.undefinedVariable o x) ∧
          ∀ z, (Session.start ts host).Reaches settings.limit z →
            x ∉ z.machine.state.variables.names) ∧
    ∀ (x : Name) (c : Context σ), c.Running → x ∉ c.state.variables.names →
      (∀ us vs rest, Token.Mentions x us vs →
        (c.session (.code c.depth us :: rest)).Reaches settings.limit
          (c.session (.code c.depth vs :: rest))) ∧
      (∀ (f : Fragment) us, f.tokens settings.limit = .ok us →
        ∀ t ∈ us, t.form ≠ .pushVariable x) ∧
      ∀ tasks depth predicate command us, Checks tasks depth predicate command →
        predicate.tokens settings.limit = .ok us →
        Condition.holds settings.limit c.state predicate =
          .ok (Condition.judge (c.state.assign x (.scalar 0)) us) ∧
        (step settings.limit ⟨tasks, c.state⟩).Leads (·.state = c.state) fun e =>
          command.tokens settings.limit = .error e ∨
            e = .nestingTooDeep command.offset settings.limit := by
  refine ⟨fun _ a z _ _ hz => hz.names_subset, fun steps report hr => ?_, fun x c hc hx => ?_⟩
  · rcases exists_runProgram_iff.1 ⟨steps, hr⟩ with
      ⟨e, he, rfl⟩ | ⟨ts, last, fault, hts, hlast, rfl⟩
    · refine ⟨fun ts z hts _ => ?_, fun o x hfault => ?_⟩
      · cases he.symm.trans hts
      · cases hfault
        cases Fragment.isSyntax_of_tokens (programTokens_eq_error_iff.1 he)
    · have hreport : (last.report settings fault).state.variables = last.machine.state.variables :=
        last.variables_conclude settings fault
      have grown : ∀ z, (Session.start ts host).Reaches settings.limit z →
          z.machine.state.variables.names ⊆ last.machine.state.variables.names :=
        fun z hz => (hlast.later hz).1.names_subset
      rw [hreport]
      refine ⟨fun ts' z hts' hz => ?_, fun o x hfault => ?_⟩
      · cases hts.symm.trans hts'
        exact grown z hz
      · obtain rfl : fault = _ := hfault
        obtain ⟨depth, us, rest, htasks, hmisses⟩ := hlast.raises.misses rfl
        have hx : x ∉ last.machine.state.variables.names := by
          cases hmisses with
          | print _ _ _ _ h | push _ _ h => exact get?_eq_none_iff.1 h
        exact ⟨hx, ts, last, depth, us, rest, hts, hlast.1, htasks, hmisses,
          fun z hz hz' => hx (grown z hz hz')⟩
  · refine ⟨fun us vs rest h => h.reaches hc hx rest,
      fun f us h t ht => Fragment.ne_pushVariable_of_tokens h ht x,
      fun tasks depth predicate command us h hp => ⟨?_, h.leads hp⟩⟩
    rw [Condition.judge_assign_zero hx, Condition.holds, hp]
    rfl

theorem bound_names_grow_to_fault :
    let a : Name := ⟨'a', rfl⟩
    let x : Name := ⟨'x', rfl⟩
    let source : Text := ['>', 'a', '<', '1', '<', '5', '#', 'x']
    let c : Context Recorder := ⟨0, ({} : State).assign a (.scalar 1), { queue := [] }, []⟩
    let predicate : Fragment := ⟨['x', '=', '0'], 0, []⟩
    let command : Fragment := ⟨['#', 'x'], 4, []⟩
    (∃ ts y z report, programTokens 64 source = .ok ts ∧
      Session.Next 64 (Session.start ts ({ queue := [] } : Recorder)) y ∧ Session.Next 64 y z ∧
      y.machine.state.variables.names = [a] ∧
      y.machine.state.variables.names ⊆ z.machine.state.variables.names ∧
      runProgram {} source ({ queue := [] } : Recorder) 9 = some report ∧
      report.fault = some (.undefinedVariable 7 x) ∧
      [a] ⊆ report.state.variables.names ∧ x ∉ report.state.variables.names) ∧
    c.Running ∧ x ∉ c.state.variables.names ∧
    (c.session [.code 0 [⟨.glyph .push, 0⟩, ⟨.variable x, 1⟩]]).Reaches 64
      (c.session [.code 0 []]) ∧
    (∀ us, command.tokens 64 = .ok us → ∀ t ∈ us, t.form ≠ .pushVariable x) ∧
    Condition.holds 64 c.state predicate = .ok true ∧
    (step 64 ⟨[.loop 0 predicate command], c.state⟩).Leads (·.state = c.state) fun e =>
      command.tokens 64 = .error e ∨ e = .nestingTooDeep 4 64 := by
  intro a x source c predicate command
  let host : Recorder := { queue := [] }
  have hgrow := bound_names_grow {} source host
  obtain ⟨ts, hts⟩ : ∃ ts, programTokens 64 source = .ok ts := ⟨_, rfl⟩
  obtain ⟨y, z, hy, hz, hnames⟩ : ∃ y z, Session.Next 64 (Session.start ts host) y ∧
      Session.Next 64 y z ∧ y.machine.state.variables.names = [a] := by
    cases hts
    exact ⟨_, _, rfl, rfl, rfl⟩
  obtain ⟨report, hr, hfault⟩ : ∃ report, runProgram {} source host 9 = some report ∧
      report.fault = some (.undefinedVariable 7 x) := ⟨_, rfl, rfl⟩
  obtain ⟨hsubset, hunbound⟩ := hgrow.2.1 9 report hr
  have hx : x ∉ c.state.variables.names := by decide
  obtain ⟨hmentions, hbody, hchecks⟩ := hgrow.2.2 x c rfl hx
  obtain ⟨hholds, hleads⟩ := hchecks _ 0 predicate command _ (.loop 0 predicate command []) rfl
  exact ⟨⟨ts, y, z, report, hts, hy, hz, hnames, hgrow.1 ts y z hts (.single hy) (.single hz), hr,
    hfault, hnames ▸ hsubset ts y hts (.single hy), (hunbound 7 x hfault).1⟩, rfl, hx,
    hmentions _ _ [] (.marked 0 1 []), hbody command, hholds, hleads⟩

end BlueNexus
