import BlueNexus.Proofs.CallLog

/-!
# Execution as nested work

`Executes` says what a piece of work makes of a context, as a whole. A token may have work within
it: the work goes first, then what the token does with its result, then the tokens behind it. A
fault ends all the work around it. The context knows how deep the work is nested, and knows it again
when the work is done (`Executes.depth_eq`).
-/

namespace BlueNexus

/-- What is executed on, and what the host has heard. -/
structure Context (σ : Type) where
  /-- The number of fragments whose code is being executed. -/
  depth : Nat
  state : State
  host : σ
  /-- The calls so far, the latest first. -/
  calls : List Call

namespace Context

variable {σ : Type}

def Running (c : Context σ) : Prop := c.state.halted = false

def put (s : State) (c : Context σ) : Context σ := { c with state := s }

def deeper (c : Context σ) : Context σ := { c with depth := c.depth + 1 }

def shallower (c : Context σ) : Context σ := { c with depth := c.depth - 1 }

def hear [Host σ] (call : Call) (c : Context σ) : Context σ :=
  { c with host := Host.after call c.host, calls := call :: c.calls }

@[simp] theorem state_put (s : State) (c : Context σ) : (c.put s).state = s := rfl

@[simp] theorem state_deeper (c : Context σ) : c.deeper.state = c.state := rfl

@[simp] theorem state_shallower (c : Context σ) : c.shallower.state = c.state := rfl

@[simp] theorem state_hear [Host σ] (call : Call) (c : Context σ) :
    (c.hear call).state = c.state := rfl

/-- The integer that the host replies with, and the context after the request. -/
def answer [Host σ] (resume : Int64 → State) (c : Context σ) : Context σ :=
  (c.put (resume (Host.reply c.host).scalar)).hear (.input (Host.reply c.host))

end Context

/-- A piece of work. -/
inductive Work where
  | code (tokens : List Token)
  /-- Reads the fragment and executes its code one level deeper. -/
  | fragment (f : Fragment)
  /-- Executes the command if the predicate holds. -/
  | guarded (predicate command : Fragment)
  | loop (predicate command : Fragment)
  | times (count : Nat) (command : Fragment)

/-- The work within a form, and what is done to the state after it. -/
inductive Form.Nests (limit : Nat) : Form → State → Work → (State → State) → Prop
  | block (x) {body : Fragment} (s)
      (h : ∀ us, body.tokens limit = .ok us → Assignment.Meaning.ofTokens us = .result) :
      Nests limit (.block x body) s (.fragment body) (State.popInto x)
  | once (predicate command s) :
      Nests limit (.conditional .once predicate command) s (.guarded predicate command) id
  | whilst (predicate command s) :
      Nests limit (.conditional .whilst predicate command) s (.loop predicate command) id
  | each (predicate command s) :
      Nests limit (.conditional .each predicate command) s
        (.times (Condition.elements s predicate) command) id

/-- The first token is about a variable that is not bound. -/
inductive Token.Misses : List Token → State → Fault → Prop
  | print {g x s} (o o' ts) (hg : g = .printNumber ∨ g = .printChar)
      (h : s.variables.get? x = none) :
      Misses (⟨.glyph g, o⟩ :: ⟨.variable x, o'⟩ :: ts) s (.undefinedVariable o' x)
  | push {x s} (o ts) (h : s.variables.get? x = none) :
      Misses (⟨.pushVariable x, o⟩ :: ts) s (.undefinedVariable o x)

/-- The first token has no work within it: the tokens that it leaves, and the context after it. -/
inductive Token.Does {σ : Type} [Host σ] (limit : Nat) :
    List Token → Context σ → List Token → Context σ → Prop
  | act {t c s} (ts) (h : t.form.Acts limit c.state s) : Does limit (t :: ts) c ts (c.put s)
  | ask {t c resume} (ts) (h : t.form.Asks limit c.state resume) :
      Does limit (t :: ts) c ts (c.answer resume)
  | snapshot {t c n} (ts) (h : t.form.Shows c.state n) :
      Does limit (t :: ts) c ts (c.hear (.notice n))
  | print {g ts c text us s} (o) (h : g.Prints ts c.state (some text) us s) :
      Does limit (⟨.glyph g, o⟩ :: ts) c us ((c.put (s.print text)).hear (.notice (.output text)))
  | printNothing {g ts c us s} (o) (h : g.Prints ts c.state none us s) :
      Does limit (⟨.glyph g, o⟩ :: ts) c us (c.put s)

/-- What the first of the tokens comes to, if there is one. -/
inductive Token.Front {σ : Type} [Host σ] (limit : Nat) (c : Context σ) : List Token → Prop
  | nil : Front limit c []
  | does {ts us c₁} (h : Token.Does limit ts c us c₁) : Front limit c ts
  | misses {ts e} (h : Token.Misses ts c.state e) : Front limit c ts
  | nests {t w after} (ts) (h : t.form.Nests limit c.state w after) : Front limit c (t :: ts)

/-- What a piece of work makes of a context, and the fault that ends it, if one does. -/
inductive Executes {σ : Type} [Host σ] (limit : Nat) :
    Work → Context σ → Context σ → Option Fault → Prop
  | halted {ts c} (h : c.state.halted = true) : Executes limit (.code ts) c c none
  | finished (c) : Executes limit (.code []) c c none
  | does {ts us c c₁ c' r} (hc : c.Running) (h : Token.Does limit ts c us c₁)
      (hs : Executes limit (.code us) c₁ c' r) : Executes limit (.code ts) c c' r
  | misses {ts c e} (hc : c.Running) (h : Token.Misses ts c.state e) :
      Executes limit (.code ts) c c (some e)
  | nests {t ts c w after c₁ c' r} (hc : c.Running) (h : t.form.Nests limit c.state w after)
      (hw : Executes limit w c c₁ none)
      (hs : Executes limit (.code ts) (c₁.put (after c₁.state)) c' r) :
      Executes limit (.code (t :: ts)) c c' r
  | nestsFault {t ts c w after c' e} (hc : c.Running) (h : t.form.Nests limit c.state w after)
      (hw : Executes limit w c c' (some e)) : Executes limit (.code (t :: ts)) c c' (some e)
  | unreadable {f c e} (h : f.tokens limit = .error e) : Executes limit (.fragment f) c c (some e)
  | tooDeep {f c ts} (h : f.tokens limit = .ok ts) (hd : limit ≤ c.depth) :
      Executes limit (.fragment f) c c (some (.nestingTooDeep f.offset limit))
  | entered {f c ts c' r} (h : f.tokens limit = .ok ts) (hd : c.depth < limit)
      (hs : Executes limit (.code ts) c.deeper c' r) : Executes limit (.fragment f) c c'.shallower r
  | guardFault {predicate command c e} (h : predicate.tokens limit = .error e) :
      Executes limit (.guarded predicate command) c c (some e)
  | passed {predicate command c} (h : Condition.holds limit c.state predicate = .ok false) :
      Executes limit (.guarded predicate command) c c none
  | holding {predicate command c c' r} (h : Condition.holds limit c.state predicate = .ok true)
      (hs : Executes limit (.fragment command) c c' r) :
      Executes limit (.guarded predicate command) c c' r
  | loopGuardFault {predicate command c e} (h : predicate.tokens limit = .error e) :
      Executes limit (.loop predicate command) c c (some e)
  | loopOver {predicate command c} (h : Condition.holds limit c.state predicate = .ok false) :
      Executes limit (.loop predicate command) c c none
  | again {predicate command c c₁ c' r} (h : Condition.holds limit c.state predicate = .ok true)
      (hw : Executes limit (.fragment command) c c₁ none)
      (hs : Executes limit (.loop predicate command) c₁ c' r) :
      Executes limit (.loop predicate command) c c' r
  | againFault {predicate command c c' e}
      (h : Condition.holds limit c.state predicate = .ok true)
      (hw : Executes limit (.fragment command) c c' (some e)) :
      Executes limit (.loop predicate command) c c' (some e)
  | timesOver (command c) : Executes limit (.times 0 command) c c none
  | times {n command c c₁ c' r} (hw : Executes limit (.fragment command) c c₁ none)
      (hs : Executes limit (.times n command) c₁ c' r) :
      Executes limit (.times (n + 1) command) c c' r
  | timesFault (n) {command c c' e} (hw : Executes limit (.fragment command) c c' (some e)) :
      Executes limit (.times (n + 1) command) c c' (some e)

variable {σ : Type} [Host σ] {limit : Nat} {w : Work} {c c' : Context σ} {r : Option Fault}
  {ts us : List Token}

theorem Token.Does.depth_eq (h : Token.Does limit ts c us c') : c'.depth = c.depth := by
  cases h <;> rfl

theorem Token.Does.running (h : Token.Does limit ts c us c') (hc : c.Running) : c'.Running := by
  cases h with
  | act ts h => exact h.logged.halted.trans hc
  | ask ts h => exact (h.logged _).halted.trans hc
  | snapshot ts h => exact hc
  | print o h | printNothing o h => exact h.logged.halted.trans hc

omit [Host σ] in
theorem Form.Nests.running {f : Form} {s : State} {after : State → State}
    (h : f.Nests limit s w after) (hc : c.Running) : (c.put (after c.state)).Running := by
  cases h with
  | block x s h => exact (State.Logged.popInto x c.state).halted.trans hc
  | once | whilst | each => exact hc

theorem Executes.depth_eq (h : Executes limit w c c' r) : c'.depth = c.depth := by
  induction h with
  | does hc h hs ih => exact ih.trans h.depth_eq
  | nests hc h hw hs ihw ihs => exact ihs.trans ihw
  | nestsFault hc h hw ih => exact ih
  | entered h hd hs ih => simp [Context.shallower, ih, Context.deeper]
  | holding h hs ih => exact ih
  | again h hw hs ihw ihs => exact ihs.trans ihw
  | againFault h hw ih => exact ih
  | times hw hs ihw ihs => exact ihs.trans ihw
  | timesFault n hw ih => exact ih
  | _ => rfl

theorem Executes.running (h : Executes limit w c c' r) (hc : c.Running) : c'.Running := by
  induction h with
  | does _ h hs ih => exact ih (h.running hc)
  | nests _ h hw hs ihw ihs => exact ihs (h.running (ihw hc))
  | nestsFault _ h hw ih => exact ih hc
  | entered h hd hs ih => exact ih hc
  | holding h hs ih => exact ih hc
  | again h hw hs ihw ihs => exact ihs (ihw hc)
  | againFault h hw ih => exact ih hc
  | times hw hs ihw ihs => exact ihs (ihw hc)
  | timesFault n hw ih => exact ih hc
  | _ => exact hc

end BlueNexus
