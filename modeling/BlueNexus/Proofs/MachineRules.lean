import BlueNexus.Machine

/-!
# The rules of execution

`Steps` lists what one step can do to the tasks and the state. Every step follows one of the rules
(`steps_step`), and no other rule applies (`step_eq_of_steps`). A rule says which tokens it takes,
what becomes of the state, and what call or fault there is.
-/

namespace BlueNexus

/-- The snapshot for which a form asks. -/
inductive Form.Shows : Form → State → Notice → Prop
  | stack (s) : Shows (.debug ['_', 's', 't', 'a', 'c', 'k']) s (.stack s.stack.toList)
  | value {x s v} (h : s.variables.get? x = some v) :
      Shows (.debug ['_', 'v', 'a', 'r', '=', x.letter]) s (.variable x v.render)

/-- A form that acts on the state alone, on the state before and after it. -/
inductive Form.Acts (limit : Nat) : Form → State → State → Prop
  | number (n s) : Acts limit (.number n) s (s.push n)
  | pushNumber (n s) : Acts limit (.pushNumber n) s (s.push n)
  | pushVariable {x s v} (h : s.variables.get? x = some v) :
      Acts limit (.pushVariable x) s (v.front?.elim s (s.rotate x).push)
  | operate {g} (s : State) (hg : g ∉ [Glyph.printNumber, .printChar, .newline]) :
      Acts limit (.glyph g) s { s with stack := s.stack.operate g }
  | nothing (x) {body : Fragment} {ts} (s) (ht : body.tokens limit = .ok ts)
      (hm : Assignment.Meaning.ofTokens ts = .nothing) : Acts limit (.block x body) s s
  | copy (x) {body : Fragment} {ts} (s) (ht : body.tokens limit = .ok ts)
      (hm : Assignment.Meaning.ofTokens ts = .top) : Acts limit (.block x body) s (s.copyInto x)
  | assign (x) {body : Fragment} {ts v} (s) (ht : body.tokens limit = .ok ts)
      (hm : Assignment.Meaning.ofTokens ts = .value v) : Acts limit (.block x body) s (s.assign x v)
  | append (x) {body : Fragment} {ts t} (s) (ht : body.tokens limit = .ok ts)
      (hm : Assignment.Meaning.ofTokens ts = .append t) :
      Acts limit (.block x body) s { s with «variables» := Assignment.append x t s.variables }
  | expression (x t s) :
      Acts limit (.expression x t) s { s with «variables» := Assignment.change x t s.variables }
  | unknown (t predicate command s) : Acts limit (.conditional (.other t) predicate command) s s
  | drop (param s) : Acts limit (.drop param) s (s.drop param)
  | debug {command s} (h : ∀ n, ¬Form.Shows (.debug command) s n) : Acts limit (.debug command) s s
  | rotate (x s) : Acts limit (.rotate x) s (s.rotate x)
  | string (t s) : Acts limit (.string t) s s
  | mention (x s) : Acts limit (.variable x) s s
  | comparison (op s) : Acts limit (.comparison op) s s

/-- A form that asks for an integer, on the state before it and after each answer. -/
inductive Form.Asks (limit : Nat) : Form → State → (Int64 → State) → Prop
  | pushInput (s) : Asks limit .pushInput s s.push
  | input (x) {body : Fragment} {ts} (s) (ht : body.tokens limit = .ok ts)
      (hm : Assignment.Meaning.ofTokens ts = .input) :
      Asks limit (.block x body) s fun n => s.assign x (.scalar n)
  | appendInput (x) {body : Fragment} {ts} (s) (ht : body.tokens limit = .ok ts)
      (hm : Assignment.Meaning.ofTokens ts = .appendInput) :
      Asks limit (.block x body) s fun n =>
        { s with «variables» := Assignment.appendInput x n s.variables }

/-- What a glyph prints with the tokens behind it in view, if anything, the tokens that it leaves,
and the state before the text is in it. -/
inductive Glyph.Prints : Glyph → List Token → State → Option Text → List Token → State → Prop
  | newline (ts s) : Prints .newline ts s (some ['\n']) ts s
  | topNumber {ts} (s : State) (h : ∀ x o us, ts ≠ ⟨.variable x, o⟩ :: us) :
      Prints .printNumber ts s (s.stack.peek?.map Numeral.decimal) ts s
  | topChar {ts} (s : State) (h : ∀ x o us, ts ≠ ⟨.variable x, o⟩ :: us) :
      Prints .printChar ts s (s.stack.peek?.map fun n => [charOfCode n]) ts s
  | whole {x s v} (o ts) (h : s.variables.get? x = some v) :
      Prints .printNumber (⟨.variable x, o⟩ :: ts) s (some v.toText) ts s
  | front {x s v} (o ts) (h : s.variables.get? x = some v) :
      Prints .printChar (⟨.variable x, o⟩ :: ts) s (v.front?.map fun n => [charOfCode n]) ts
        (s.rotate x)

theorem Glyph.Prints.suffix {g : Glyph} {ts us : List Token} {s s' : State} {t : Option Text}
    (h : g.Prints ts s t us s') : us <:+ ts := by
  cases h with
  | whole o us | front o us => exact List.suffix_cons _ us
  | _ => exact List.suffix_rfl

namespace Machine

/-- Beginning the code of a fragment. -/
inductive Enters (limit depth : Nat) (f : Fragment) (rest : List Task) (s : State) : Move → Prop
  | unreadable {e} (h : f.tokens limit = .error e) : Enters limit depth f rest s (.failed e s)
  | tooDeep {ts} (h : f.tokens limit = .ok ts) (hd : limit ≤ depth) :
      Enters limit depth f rest s (.failed (.nestingTooDeep f.offset limit) s)
  | entered {ts} (h : f.tokens limit = .ok ts) (hd : depth < limit) :
      Enters limit depth f rest s (.silent ⟨.code (depth + 1) ts :: rest, s⟩)

/-- Beginning the code of a fragment on a condition. -/
inductive EntersIf (limit depth : Nat) (predicate command : Fragment) (rest past : List Task)
    (s : State) : Move → Prop
  | unreadable {e} (h : predicate.tokens limit = .error e) :
      EntersIf limit depth predicate command rest past s (.failed e s)
  | passed (h : Condition.holds limit s predicate = .ok false) :
      EntersIf limit depth predicate command rest past s (.silent ⟨past, s⟩)
  | holding {m} (h : Condition.holds limit s predicate = .ok true)
      (he : Enters limit depth command rest s m) :
      EntersIf limit depth predicate command rest past s m

/-- What a step makes of the tasks and the state. -/
inductive Steps (limit : Nat) : List Task → State → Move → Prop
  | halted {tasks s} (h : s.halted = true) : Steps limit tasks s .finished
  | done (s) : Steps limit [] s .finished
  | codeOver (depth rest s) : Steps limit (.code depth [] :: rest) s (.silent ⟨rest, s⟩)
  | act {t s s'} (depth ts rest) (h : t.form.Acts limit s s') :
      Steps limit (.code depth (t :: ts) :: rest) s (.silent ⟨.code depth ts :: rest, s'⟩)
  | ask {t s resume} (depth ts rest) (h : t.form.Asks limit s resume) :
      Steps limit (.code depth (t :: ts) :: rest) s
        (.ask fun n => ⟨.code depth ts :: rest, resume n⟩)
  | snapshot {t s n} (depth ts rest) (h : t.form.Shows s n) :
      Steps limit (.code depth (t :: ts) :: rest) s (.tell n ⟨.code depth ts :: rest, s⟩)
  | print {g ts s t us s'} (depth o rest) (h : g.Prints ts s (some t) us s') :
      Steps limit (.code depth (⟨.glyph g, o⟩ :: ts) :: rest) s
        (.tell (.output t) ⟨.code depth us :: rest, s'.print t⟩)
  | printNothing {g ts s us s'} (depth o rest) (h : g.Prints ts s none us s') :
      Steps limit (.code depth (⟨.glyph g, o⟩ :: ts) :: rest) s
        (.silent ⟨.code depth us :: rest, s'⟩)
  | printUnbound {g x s} (depth o o' ts rest) (hg : g = .printNumber ∨ g = .printChar)
      (h : s.variables.get? x = none) :
      Steps limit (.code depth (⟨.glyph g, o⟩ :: ⟨.variable x, o'⟩ :: ts) :: rest) s
        (.failed (.undefinedVariable o' x) s)
  | pushUnbound {x s} (depth o ts rest) (h : s.variables.get? x = none) :
      Steps limit (.code depth (⟨.pushVariable x, o⟩ :: ts) :: rest) s
        (.failed (.undefinedVariable o x) s)
  | block {x body s m} (depth o ts rest)
      (hm : ∀ us, body.tokens limit = .ok us → Assignment.Meaning.ofTokens us = .result)
      (h : Enters limit depth body (.store x :: .code depth ts :: rest) s m) :
      Steps limit (.code depth (⟨.block x body, o⟩ :: ts) :: rest) s m
  | once {predicate command s m} (depth o ts rest)
      (h : EntersIf limit depth predicate command (.code depth ts :: rest)
        (.code depth ts :: rest) s m) :
      Steps limit (.code depth (⟨.conditional .once predicate command, o⟩ :: ts) :: rest) s m
  | whilst (predicate command s depth o ts rest) :
      Steps limit (.code depth (⟨.conditional .whilst predicate command, o⟩ :: ts) :: rest) s
        (.silent ⟨.loop depth predicate command :: .code depth ts :: rest, s⟩)
  | each (predicate command s depth o ts rest) :
      Steps limit (.code depth (⟨.conditional .each predicate command, o⟩ :: ts) :: rest) s
        (.silent ⟨.times depth (Condition.elements s predicate) command :: .code depth ts :: rest,
          s⟩)
  | store (x rest s) : Steps limit (.store x :: rest) s (.silent ⟨rest, s.popInto x⟩)
  | loop {predicate command s m} (depth rest)
      (h : EntersIf limit depth predicate command (.loop depth predicate command :: rest) rest s
        m) :
      Steps limit (.loop depth predicate command :: rest) s m
  | timesOver (depth command rest s) :
      Steps limit (.times depth 0 command :: rest) s (.silent ⟨rest, s⟩)
  | times {command s m} (depth n rest)
      (h : Enters limit depth command (.times depth n command :: rest) s m) :
      Steps limit (.times depth (n + 1) command :: rest) s m

variable {limit depth : Nat} {s : State} {rest : List Task}

theorem enters_enter {f : Fragment} {ts : List Token} (h : f.tokens limit = .ok ts) :
    Enters limit depth f rest s (enter limit depth f.offset ts rest s) := by
  unfold enter
  split
  · next hd => exact .tooDeep h hd
  · next hd => exact .entered h (Nat.lt_of_not_le hd)

theorem enters_enterFragment (f : Fragment) :
    Enters limit depth f rest s (enterFragment limit depth f rest s) := by
  unfold enterFragment
  split
  · next h => exact .unreadable h
  · next h => exact enters_enter h

theorem entersIf_enterIf (predicate command : Fragment) (past : List Task) :
    EntersIf limit depth predicate command rest past s
      (enterIf limit depth predicate command rest past s) := by
  unfold enterIf
  split
  · next e h =>
    unfold Condition.holds at h
    cases hp : predicate.tokens limit with
    | error e' =>
      rw [hp] at h
      cases h
      exact .unreadable hp
    | ok ts => simp [hp, Except.map] at h
  · next h => exact .passed h
  · next h => exact .holding h (enters_enterFragment command)

theorem steps_print {g : Glyph} {ts us : List Token} {s' : State} {t : Option Text} {o : Nat}
    (h : g.Prints ts s t us s') :
    Steps limit (.code depth (⟨.glyph g, o⟩ :: ts) :: rest) s
      (print t (.code depth us :: rest) s') := by
  cases t with
  | none => exact .printNothing depth o rest h
  | some t => exact .print depth o rest h

theorem steps_printNext (asChar : Bool) (ts : List Token) (o : Nat) :
    Steps limit
      (.code depth (⟨.glyph (if asChar then .printChar else .printNumber), o⟩ :: ts) :: rest) s
      (printNext asChar depth ts rest s) := by
  generalize hg : (if asChar then Glyph.printChar else Glyph.printNumber) = g
  unfold printNext
  split
  · next x o' us =>
    unfold printVariable
    cases hx : s.variables.get? x with
    | none => exact .printUnbound depth o o' us rest (by cases asChar <;> simp [← hg]) hx
    | some v =>
      cases asChar with
      | true => exact hg ▸ steps_print (.front o' us hx)
      | false => exact hg ▸ steps_print (.whole o' us hx)
  · next h =>
    unfold printTop
    cases asChar with
    | true => exact hg ▸ steps_print (.topChar s h)
    | false => exact hg ▸ steps_print (.topNumber s h)

private theorem steps_pushVariable (x : Name) (ts : List Token) (o : Nat) :
    Steps limit (.code depth (⟨.pushVariable x, o⟩ :: ts) :: rest) s
      (pushVariable x o (.code depth ts :: rest) s) := by
  unfold pushVariable
  cases hx : s.variables.get? x with
  | none => exact .pushUnbound depth o ts rest hx
  | some v => exact .act depth ts rest (.pushVariable hx)

private theorem steps_debug (command : Text) (ts : List Token) (o : Nat) :
    Steps limit (.code depth (⟨.debug command, o⟩ :: ts) :: rest) s
      (debug command (.code depth ts :: rest) s) := by
  unfold debug
  split
  · exact .snapshot depth ts rest (.stack s)
  · split
    · next h =>
      refine .act depth ts rest (.debug fun n hn => ?_)
      cases hn with
      | value hv => simp [Name.ofText?, hv] at h
    · next x v h =>
      obtain ⟨y, hy, h⟩ := Option.bind_eq_some_iff.1 h
      obtain ⟨w, hw, h⟩ := Option.map_eq_some_iff.1 h
      cases h
      rw [Name.eq_of_ofText? hy]
      exact .snapshot depth ts rest (.value hw)
  · next h₁ h₂ =>
    refine .act depth ts rest (.debug fun n hn => ?_)
    cases hn with
    | stack => exact h₁ rfl
    | value hv => exact h₂ _ rfl

private theorem steps_block (x : Name) (body : Fragment) (ts : List Token) (o : Nat) :
    Steps limit (.code depth (⟨.block x body, o⟩ :: ts) :: rest) s
      (block limit depth x body (.code depth ts :: rest) s) := by
  unfold block
  cases ht : body.tokens limit with
  | error e => exact .block depth o ts rest (by simp [ht]) (.unreadable ht)
  | ok us =>
    cases hm : Assignment.Meaning.ofTokens us with
    | nothing => simpa [hm] using Steps.act depth ts rest (.nothing x s ht hm)
    | top => simpa [hm] using Steps.act depth ts rest (.copy x s ht hm)
    | input => simpa [hm] using Steps.ask depth ts rest (.input x s ht hm)
    | value v => simpa [hm] using Steps.act depth ts rest (.assign x s ht hm)
    | append t => simpa [hm] using Steps.act depth ts rest (.append x s ht hm)
    | appendInput => simpa [hm] using Steps.ask depth ts rest (.appendInput x s ht hm)
    | result =>
      refine .block depth o ts rest (fun vs hvs => ?_) (by simpa [hm] using enters_enter ht)
      cases ht.symm.trans hvs
      exact hm

private theorem steps_conditional (kind : ConditionKind) (predicate command : Fragment)
    (ts : List Token) (o : Nat) :
    Steps limit (.code depth (⟨.conditional kind predicate command, o⟩ :: ts) :: rest) s
      (conditional limit depth kind predicate command (.code depth ts :: rest) s) := by
  cases kind with
  | once => exact .once depth o ts rest (entersIf_enterIf predicate command _)
  | whilst => exact .whilst predicate command s depth o ts rest
  | each => exact .each predicate command s depth o ts rest
  | other t => exact .act depth ts rest (.unknown t predicate command s)

private theorem steps_perform (token : Token) (ts : List Token) :
    Steps limit (.code depth (token :: ts) :: rest) s (perform limit depth token ts rest s) := by
  obtain ⟨form, o⟩ := token
  cases form with
  | number n => exact .act depth ts rest (.number n s)
  | pushNumber n => exact .act depth ts rest (.pushNumber n s)
  | pushVariable x => exact steps_pushVariable x ts o
  | pushInput => exact .ask depth ts rest (.pushInput s)
  | glyph g =>
    by_cases hn : g = .printNumber
    · subst hn
      exact steps_printNext false ts o
    · by_cases hc : g = .printChar
      · subst hc
        exact steps_printNext true ts o
      · by_cases hl : g = .newline
        · subst hl
          exact steps_print (.newline ts s)
        · have h : (Form.glyph g).Acts limit s { s with stack := s.stack.operate g } :=
            .operate s (by simp [hn, hc, hl])
          cases g <;> first | exact .act depth ts rest h | contradiction
  | block x body => exact steps_block x body ts o
  | expression x t => exact .act depth ts rest (.expression x t s)
  | conditional kind predicate command => exact steps_conditional kind predicate command ts o
  | drop param => exact .act depth ts rest (.drop param s)
  | debug command => exact steps_debug command ts o
  | rotate x => exact .act depth ts rest (.rotate x s)
  | string t => exact .act depth ts rest (.string t s)
  | «variable» x => exact .act depth ts rest (.mention x s)
  | comparison op => exact .act depth ts rest (.comparison op s)

theorem steps_step (limit : Nat) (m : Machine) : Steps limit m.tasks m.state (m.step limit) := by
  obtain ⟨tasks, s⟩ := m
  unfold step
  split
  · next h => exact .halted h
  · match tasks with
    | [] => exact .done s
    | .code depth [] :: rest => exact .codeOver depth rest s
    | .code depth (token :: ts) :: rest => exact steps_perform token ts
    | .store x :: rest => exact .store x rest s
    | .loop depth predicate command :: rest =>
      exact .loop depth rest (entersIf_enterIf predicate command rest)
    | .times depth 0 command :: rest => exact .timesOver depth command rest s
    | .times depth (n + 1) command :: rest =>
      exact .times depth n rest (enters_enterFragment command)

theorem enter_of_enters {f : Fragment} {ts : List Token} {m : Move} (ht : f.tokens limit = .ok ts)
    (h : Enters limit depth f rest s m) : enter limit depth f.offset ts rest s = m := by
  cases h with
  | unreadable h => cases ht.symm.trans h
  | tooDeep h hd => exact if_pos hd
  | entered h hd =>
    cases ht.symm.trans h
    exact if_neg (Nat.not_le_of_lt hd)

theorem enterFragment_of_enters {f : Fragment} {m : Move} (h : Enters limit depth f rest s m) :
    enterFragment limit depth f rest s = m := by
  unfold enterFragment
  cases ht : f.tokens limit with
  | error e =>
    cases h with
    | unreadable h =>
      cases ht.symm.trans h
      rfl
    | tooDeep h | entered h => cases ht.symm.trans h
  | ok ts => exact enter_of_enters ht h

theorem enterIf_of_entersIf {predicate command : Fragment} {past : List Task} {m : Move}
    (h : EntersIf limit depth predicate command rest past s m) :
    enterIf limit depth predicate command rest past s = m := by
  unfold enterIf
  cases h with
  | unreadable h => simp [Condition.holds, h, Except.map]
  | passed h => simp [h]
  | holding h he => simpa [h] using enterFragment_of_enters he

private theorem perform_of_acts {t : Token} {ts : List Token} {s' : State}
    (h : t.form.Acts limit s s') :
    perform limit depth t ts rest s = .silent ⟨.code depth ts :: rest, s'⟩ := by
  obtain ⟨form, o⟩ := t
  cases h with
  | pushVariable h => simp [perform, pushVariable, h]
  | @operate g s hg => cases g <;> first | rfl | simp at hg
  | nothing x s ht hm | copy x s ht hm | assign x s ht hm | append x s ht hm =>
    simp [perform, block, ht, hm]
  | @debug command s h =>
    simp only [perform, debug]
    split
    · exact absurd (.stack s) (h _)
    · split
      · rfl
      · next x v hx =>
        obtain ⟨y, hy, hv⟩ := Option.bind_eq_some_iff.1 hx
        obtain ⟨w, hw, -⟩ := Option.map_eq_some_iff.1 hv
        rw [Name.eq_of_ofText? hy] at h
        exact absurd (.value hw) (h _)
    · rfl
  | _ => rfl

private theorem perform_of_asks {t : Token} {ts : List Token} {resume : Int64 → State}
    (h : t.form.Asks limit s resume) :
    perform limit depth t ts rest s = .ask fun n => ⟨.code depth ts :: rest, resume n⟩ := by
  obtain ⟨form, o⟩ := t
  cases h with
  | pushInput => rfl
  | input x s ht hm | appendInput x s ht hm => simp [perform, block, ht, hm]

private theorem perform_of_shows {t : Token} {ts : List Token} {n : Notice} (h : t.form.Shows s n) :
    perform limit depth t ts rest s = .tell n ⟨.code depth ts :: rest, s⟩ := by
  obtain ⟨form, o⟩ := t
  generalize hf : form = f at h
  cases h with
  | stack => subst hf; rfl
  | value h => subst hf; simp [perform, debug, Name.ofText?, h]

theorem perform_of_prints {g : Glyph} {o : Nat} {ts us : List Token} {t : Option Text} {s' : State}
    (h : g.Prints ts s t us s') :
    perform limit depth ⟨.glyph g, o⟩ ts rest s = print t (.code depth us :: rest) s' := by
  cases h with
  | newline => rfl
  | topNumber s h | topChar s h =>
    simp only [perform, printNext]
    rfl
  | whole o ts h | front o ts h => simp [perform, printNext, printVariable, h]

/-- Only one rule applies to a state that is not halted. -/
theorem step_eq_of_steps {tasks : List Task} {m : Move} (h : Steps limit tasks s m)
    (hs : s.halted = false) : step limit ⟨tasks, s⟩ = m := by
  simp only [step, hs, Bool.false_eq_true, if_false]
  cases h with
  | halted h => cases hs.symm.trans h
  | act depth ts rest h => exact perform_of_acts h
  | ask depth ts rest h => exact perform_of_asks h
  | snapshot depth ts rest h => exact perform_of_shows h
  | print depth o rest h => exact perform_of_prints h
  | printNothing depth o rest h => exact perform_of_prints h
  | printUnbound depth o o' ts rest hg h =>
    rcases hg with rfl | rfl <;> simp [perform, printNext, printVariable, h]
  | pushUnbound depth o ts rest h => simp [perform, pushVariable, h]
  | @block x body s m depth o ts rest hm h =>
    simp only [perform, block]
    cases ht : body.tokens limit with
    | error e =>
      cases h with
      | unreadable h =>
        cases ht.symm.trans h
        rfl
      | tooDeep h | entered h => cases ht.symm.trans h
    | ok us =>
      have hresult := hm us ht
      simpa only [hresult] using enter_of_enters ht h
  | once depth o ts rest h => exact enterIf_of_entersIf h
  | loop depth rest h => exact enterIf_of_entersIf h
  | times depth n rest h => exact enterFragment_of_enters h
  | _ => rfl

private theorem Enters.eq_of_failed {f : Fragment} {e : Fault} {s' : State}
    (h : Enters limit depth f rest s (.failed e s')) : s' = s := by
  cases h <;> rfl

private theorem EntersIf.eq_of_failed {predicate command : Fragment} {past : List Task} {e : Fault}
    {s' : State} (h : EntersIf limit depth predicate command rest past s (.failed e s')) :
    s' = s := by
  cases h with
  | unreadable => rfl
  | holding _ he => exact he.eq_of_failed

theorem Steps.eq_of_failed {tasks : List Task} {e : Fault} {s' : State}
    (h : Steps limit tasks s (.failed e s')) : s' = s := by
  cases h with
  | printUnbound | pushUnbound => rfl
  | block _ _ _ _ _ h => exact h.eq_of_failed
  | once _ _ _ _ h => exact h.eq_of_failed
  | loop _ _ h => exact h.eq_of_failed
  | times _ _ _ h => exact h.eq_of_failed

/-- A step with a fault changes nothing. -/
theorem eq_of_step_failed {m : Machine} {e : Fault} (h : m.step limit = .failed e s) :
    s = m.state := by
  have hsteps := steps_step limit m
  rw [h] at hsteps
  exact hsteps.eq_of_failed

end Machine

end BlueNexus
