import BlueNexus.Host.Recorder
import BlueNexus.Proofs.MachineFrame
import BlueNexus.Proofs.PushMarkers
import BlueNexus.Proofs.TokenScan

/-!
# Termination without open loops

The command of a conditional is executed as long as its predicate holds only where the text says so
with `whilstMark`. Without it every run ends: what a token carries is shorter than the text around
it, and a loop over a sequence takes its count when it begins.
-/

namespace BlueNexus

open Text

/-- How a loop that may run on without end is written. -/
def whilstMark : Text := ['?', '[', '!', '∞', ']']

theorem Form.Reads.kind_prefix_of {limit offset n : Nat} {breaks : List Nat} {c : Char} {r : Text}
    {kind : ConditionKind} {predicate command : Fragment}
    (h : Reads limit breaks offset c r (.ok ⟨some (.conditional kind predicate command), n⟩)) :
    '?' :: '[' :: (kind.toText ++ [']']) <+: c :: r := by
  cases h with
  | @conditional kind predicate r n hk hp h =>
    rw [ConditionKind.toText_ofText]
    exact ⟨'{' :: (predicate ++ '}' :: '(' :: r), by simp⟩

theorem Fragment.Scan.kind_infix_of {limit offset : Nat} {breaks : List Nat} {t : Text}
    {ts : List Token} (h : Scan limit breaks offset t ts) {u : Token} (hu : u ∈ ts)
    {kind : ConditionKind} {predicate command : Fragment}
    (hf : u.form = .conditional kind predicate command) :
    '?' :: '[' :: (kind.toText ++ [']']) <:+: t := by
  obtain ⟨a, c, r, n, rfl, -, hreads⟩ := h.of_mem hu
  rw [hf] at hreads
  exact hreads.kind_prefix_of.isInfix.trans (List.suffix_append a _).isInfix

/-- A token that begins no open loop, and whose fragments are shorter than `n` and have none. -/
structure Token.Straight (n : Nat) (t : Token) : Prop where
  closed : ∀ predicate command, t.form ≠ .conditional .whilst predicate command
  carried : ∀ f ∈ t.form.fragments, f.text.length < n ∧ ¬whilstMark <:+: f.text

theorem Fragment.straight_of_tokens {limit : Nat} {f : Fragment} {ts : List Token}
    (h : f.tokens limit = .ok ts) (hf : ¬whilstMark <:+: f.text) :
    ∀ t ∈ ts, t.Straight f.text.length := by
  have hscan := scan_of_tokens h
  intro t ht
  refine ⟨fun predicate command hw => hf (hscan.kind_infix_of ht hw), fun g hg => ?_⟩
  obtain ⟨_, _, hs, hlt⟩ := hscan.carried ht hg
  exact ⟨hlt, fun hm => hf (hm.trans hs.isInfix)⟩

private theorem PushMarker.straight_fuse {n : Nat} {ts : List Token} (h : ∀ t ∈ ts, t.Straight n) :
    ∀ t ∈ fuse ts, t.Straight n := by
  intro t ht
  rcases mem_fuse ht with ht | ⟨u, _, hu⟩
  · exact h t ht
  · obtain ⟨form, o⟩ := t
    rcases fused?_cases hu with ⟨_, hf⟩ | ⟨_, _, hf⟩ | ⟨_, _, hf⟩
    all_goals
      dsimp only at hf
      subst hf
      exact ⟨by simp, by simp [Form.fragments]⟩

namespace Session

variable {σ : Type} [Host σ] {limit : Nat} {a b : List Task}

variable (σ) in
/-- Whatever the state and the host, the tasks are done after some steps, or a fault ends them. -/
def Terminates (limit : Nat) (tasks : List Task) : Prop :=
  ∀ t : Session σ, t.machine.tasks = tasks → t.Finishes limit

theorem Terminates.append (ha : Terminates σ limit a) (hb : Terminates σ limit b) :
    Terminates σ limit (a ++ b) := by
  intro t ht
  obtain ⟨⟨tasks, state⟩, host, calls⟩ := t
  subst ht
  obtain ⟨z, fault, hz⟩ := ha ⟨⟨a, state⟩, host, calls⟩ rfl
  cases fault with
  | some e => exact ⟨_, _, hz.before b⟩
  | none =>
    by_cases hh : z.machine.state.halted = true
    · exact ⟨_, none, hz.1.before b, step_ended_iff.2 (Machine.step_of_halted hh)⟩
    · have hrest := hz.reaches_behind (Bool.eq_false_iff.2 hh) b
      exact (hb _ rfl).of_reaches hrest

theorem Terminates.cons {t : Task} (ht : Terminates σ limit [t]) (hb : Terminates σ limit b) :
    Terminates σ limit (t :: b) :=
  ht.append hb

theorem Terminates.of_steps
    (h : ∀ s m, Machine.Steps limit a s m →
      m.Leads (fun n => Terminates σ limit n.tasks) fun _ => True) :
    Terminates σ limit a := by
  intro t ht
  subst ht
  have hm := h _ _ (Machine.steps_step limit t.machine)
  cases hs : t.step limit with
  | ended z fault =>
    have hz := eq_of_step_ended hs
    exact ⟨t, fault, .refl, hz ▸ hs⟩
  | ongoing s =>
    have hn : Next limit t s := hs
    exact Finishes.of_reaches (.single hn) (hn.leads hm s rfl)

theorem terminates_nil : Terminates σ limit [] :=
  .of_steps fun s m h => by
    cases h with
    | halted => trivial
    | done => trivial

private theorem terminates_store (x : Name) : Terminates σ limit [.store x] :=
  .of_steps fun s m h => by
    cases h with
    | halted => trivial
    | store => exact terminates_nil

variable {f : Fragment} {depth : Nat}

/-- What begins the code of a fragment comes to an end if the code and what follows it do. -/
theorem terminates_of_enters {rest : List Task} {s : State} {m : Move}
    (h : Machine.Enters limit depth f rest s m)
    (hf : ∀ ts, f.tokens limit = .ok ts → ∀ depth, Terminates σ limit [.code depth ts])
    (hrest : Terminates σ limit rest) :
    m.Leads (fun n => Terminates σ limit n.tasks) fun _ => True := by
  cases h with
  | unreadable => trivial
  | tooDeep => trivial
  | entered ht => exact (hf _ ht _).cons hrest

theorem terminates_times (count : Nat)
    (hf : ∀ ts, f.tokens limit = .ok ts → ∀ depth, Terminates σ limit [.code depth ts]) :
    Terminates σ limit [.times depth count f] := by
  induction count with
  | zero =>
    refine .of_steps fun s m h => ?_
    cases h with
    | halted => trivial
    | timesOver => exact terminates_nil
  | succ n ih =>
    refine .of_steps fun s m h => ?_
    cases h with
    | halted => trivial
    | times _ _ _ h => exact terminates_of_enters h hf ih

/-- The induction is on the bound of what the tokens carry, and within it on their number. -/
theorem terminates_code {n : Nat} {ts : List Token} (h : ∀ t ∈ ts, t.Straight n) (depth : Nat) :
    Terminates σ limit [.code depth ts] := by
  induction n using Nat.strongRecOn generalizing ts depth with
  | ind n ihn =>
    induction hl : ts.length using Nat.strongRecOn generalizing ts with
    | ind l ihl =>
      have carried : ∀ {t : Token} {f : Fragment}, t ∈ ts → f ∈ t.form.fragments →
          ∀ us, f.tokens limit = .ok us → ∀ depth, Terminates σ limit [.code depth us] := by
        intro t f ht hf us hus depth
        obtain ⟨hlt, hm⟩ := (h t ht).carried f hf
        exact ihn _ hlt (Fragment.straight_of_tokens hus hm) depth
      have behind : ∀ {t : Token} {us vs : List Token}, ts = t :: us → vs <:+ us →
          Terminates σ limit [.code depth vs] := by
        intro t us vs hts hs
        have hle := hs.length_le
        refine ihl vs.length ?_ (fun v hv => h v ?_) rfl
        · rw [← hl, hts, List.length_cons]
          omega
        · rw [hts]
          exact List.mem_cons_of_mem t (hs.mem hv)
      refine .of_steps fun s m hm => ?_
      cases hm with
      | halted | printUnbound | pushUnbound => trivial
      | codeOver => exact terminates_nil
      | act | snapshot => exact behind rfl List.suffix_rfl
      | ask => exact fun _ => behind rfl List.suffix_rfl
      | print _ _ _ hp | printNothing _ _ _ hp => exact behind rfl hp.suffix
      | @block x body _ _ _ o us _ _ he =>
        have hbody := carried (f := body) List.mem_cons_self List.mem_cons_self
        exact terminates_of_enters he hbody ((terminates_store x).cons (behind rfl List.suffix_rfl))
      | @once predicate command _ _ _ o us _ he =>
        have hcommand := carried (f := command) List.mem_cons_self (by simp [Form.fragments])
        cases he with
        | unreadable => trivial
        | passed => exact behind rfl List.suffix_rfl
        | holding _ he => exact terminates_of_enters he hcommand (behind rfl List.suffix_rfl)
      | whilst predicate command => exact absurd rfl ((h _ List.mem_cons_self).closed _ _)
      | each predicate command _ _ o us _ =>
        have hcommand := carried (f := command) List.mem_cons_self (by simp [Form.fragments])
        exact (terminates_times _ hcommand).cons (behind rfl List.suffix_rfl)

end Session

/-- What a token carries is shorter than the text it was read from, a loop over a sequence ends in
any session, and so does every program without open loops. -/
theorem terminates_without_whilst {σ : Type} [Host σ] :
    (∀ limit (f : Fragment) ts, f.tokens limit = .ok ts →
      ∀ t ∈ ts, ∀ g ∈ t.form.fragments, g.text.length < f.text.length) ∧
    (∀ limit depth o predicate (command : Fragment), ¬whilstMark <:+: command.text →
      ∀ t : Session σ,
        t.machine.tasks = [.code depth [⟨.conditional .each predicate command, o⟩]] →
        t.Finishes limit) ∧
    ∀ (settings : Settings) (source : Text) (host : σ),
      ¬whilstMark <:+: (Fragment.ofSource source).text →
      ∃ steps report, runProgram settings source host steps = some report := by
  refine ⟨fun limit f ts h t ht g hg => ?_, fun limit depth o predicate command hm => ?_,
    fun settings source host hm => ?_⟩
  · obtain ⟨_, _, _, hlt⟩ := (Fragment.scan_of_tokens h).carried ht hg
    exact hlt
  · have htimes : ∀ count, Session.Terminates σ limit [.times depth count command] := fun count =>
      Session.terminates_times count fun us hus depth =>
        Session.terminates_code (Fragment.straight_of_tokens hus hm) depth
    refine Session.Terminates.of_steps fun s m h => ?_
    cases h with
    | halted => trivial
    | act _ _ _ h => cases h
    | ask _ _ _ h => cases h
    | snapshot _ _ _ h =>
      generalize hf : Form.conditional .each predicate command = f at h
      cases h <;> cases hf
    | each => exact (htimes _).cons (Session.terminates_code (n := 0) (by simp) depth)
  · suffices h : ∃ report steps, runProgram settings source host steps = some report by
      obtain ⟨report, steps, h⟩ := h
      exact ⟨steps, report, h⟩
    simp only [exists_runProgram_iff]
    cases hts : (Fragment.ofSource source).tokens settings.limit with
    | error e => exact ⟨_, .inl ⟨e, programTokens_eq_error_iff.2 hts, rfl⟩⟩
    | ok us =>
      have hstraight := PushMarker.straight_fuse (Fragment.straight_of_tokens hts hm)
      have hrun : (Session.start (PushMarker.fuse us) host).Finishes settings.limit :=
        Session.terminates_code hstraight 0 _ rfl
      obtain ⟨z, fault, hz⟩ := hrun
      exact ⟨_, .inr ⟨_, z, fault, programTokens_eq_ok_iff.2 ⟨us, hts, rfl⟩, hz, rfl⟩⟩

theorem terminates_on_growing_sequence :
    ∃ source ts command, Fragment.tokens 64 (.ofSource source) = .ok ts ∧
      (∀ t ∈ ts, ∀ g ∈ t.form.fragments, g.text.length < source.length) ∧
      (Session.start [⟨.conditional .each (.code [] 0 ['*', 's']) command, 0⟩]
        ({ queue := [] } : Recorder)).Finishes 64 ∧
      ∃ steps report, runProgram {} source ({ queue := [] } : Recorder) steps = some report := by
  let body := ['>', 's', '<', '.', '"', 'c', '"', '<']
  let source := ['>', 's', '<', '"', 'a', 'b', '"', '<', '?', '[', '!', '∑', ']', '{', '*', 's',
    '}', '('] ++ body ++ [')']
  obtain ⟨ts, hts⟩ : ∃ ts, Fragment.tokens 64 (.ofSource source) = .ok ts := ⟨_, rfl⟩
  have hterm := terminates_without_whilst (σ := Recorder)
  exact ⟨source, ts, .code [] 0 body, hts, hterm.1 64 (.ofSource source) ts hts,
    hterm.2.1 64 0 0 _ _ (by decide) _ rfl, hterm.2.2 {} source _ (by decide)⟩

end BlueNexus
