import BlueNexus.Proofs.Invariants

/-!
# Effects on the host and their marks

A program asks for input, prints and shows snapshots, and each of these effects is written with
characters of its own. A step that has an effect takes up a token that is written with a mark of it,
or a block with such a token in its body (`Machine.Steps.causes`). All tokens of a run are written
in the text, so nothing happens to the host for which there is no mark in the text
(`Session.Reaches.marked`).
-/

namespace BlueNexus

/-- What a program can do to its host. -/
inductive Effect where
  | request
  | print
  | snapshot
deriving DecidableEq

/-- The characters with which an effect is written. -/
def Effect.marks : Effect → List Char
  | .request => ['&']
  | .print => ['#', '$', '¦']
  | .snapshot => ['_']

/-- The effect of a call. The report of a fault is none of the program. -/
def Call.effect? : Call → Option Effect
  | .input _ => some .request
  | .notice (.output _) => some .print
  | .notice (.stack _) | .notice (.variable ..) => some .snapshot
  | .notice (.fault ..) => none

def Move.effect? : Move → Option Effect
  | .ask _ => some .request
  | .tell n _ => (Call.notice n).effect?
  | _ => none

/-- The character with which a form is written that stands for an effect, if there is any. -/
def Form.mark? : Form → Option Char
  | .glyph g => some g.toChar
  | .debug _ => some '_'
  | .pushInput => some '&'
  | _ => none

/-- The token is written with a mark of the effect, or has such a token in its code. -/
inductive Token.Causes (limit : Nat) (e : Effect) (t : Token) : Prop
  | mark {c} (h : t.form.mark? = some c) (hc : c ∈ e.marks)
  | body {f ts u c} (hf : f ∈ t.form.code) (hts : f.tokens limit = .ok ts) (hu : u ∈ ts)
      (h : u.form.mark? = some c) (hc : c ∈ e.marks)

variable {limit depth offset n : Nat} {breaks : List Nat} {c : Char} {r : Text} {e : Effect}
  {s s' : State} {rest past tasks : List Task} {m : Move} {f : Fragment} {t : Token}
  {ts us : List Token}

theorem Form.Reads.eq_of_mark? {form : Form} {d : Char}
    (h : Reads limit breaks offset c r (.ok ⟨some form, n⟩)) (hd : form.mark? = some d) :
    d = c := by
  cases h with
  | debug | dot =>
    cases hd
    rfl
  | glyph _ _ _ h =>
    cases hd
    exact Glyph.toChar_of_ofChar? h
  | _ => cases hd

theorem PushMarker.eq_of_mark? {form fused : Form} (h : fused? form = some fused)
    (hc : fused.mark? = some c) : form = .glyph .input ∧ c = '&' := by
  rcases fused?_cases h with ⟨hf, rfl⟩ | ⟨_, _, rfl⟩ | ⟨_, _, rfl⟩
  · cases hc
    exact ⟨hf, rfl⟩
  · cases hc
  · cases hc

theorem Assignment.Meaning.exists_input (h : ofTokens ts = .input ∨ ofTokens ts = .appendInput) :
    ∃ u ∈ ts, u.form = .glyph .input := by
  unfold ofTokens at h
  split at h
  all_goals
    first
    | exact ⟨_, List.mem_cons_self, rfl⟩
    | exact ⟨_, List.mem_cons_of_mem _ List.mem_cons_self, rfl⟩
    | exact absurd h (by simp)

theorem Form.Asks.causes {resume : Int64 → State} (h : t.form.Asks limit s resume) :
    t.Causes limit .request := by
  obtain ⟨form, o⟩ := t
  have body : ∀ {x : Name} {body : Fragment} {us : List Token}, body.tokens limit = .ok us →
      (∃ u ∈ us, u.form = .glyph .input) → Token.Causes limit .request ⟨.block x body, o⟩ := by
    rintro x body us hus ⟨u, hu, hf⟩
    exact .body (c := '&') List.mem_cons_self hus hu (by rw [hf]; rfl) List.mem_cons_self
  cases h with
  | pushInput => exact .mark rfl List.mem_cons_self
  | input x s hus hm => exact body hus (Assignment.Meaning.exists_input (.inl hm))
  | appendInput x s hus hm => exact body hus (Assignment.Meaning.exists_input (.inr hm))

theorem Form.Shows.causes {n : Notice} (h : t.form.Shows s n)
    (he : (Call.notice n).effect? = some e) : t.Causes limit e := by
  obtain ⟨form, o⟩ := t
  cases h with
  | stack | value =>
    cases he
    exact .mark rfl List.mem_cons_self

theorem Glyph.Prints.causes {g : Glyph} {text : Option Text} {o : Nat}
    (h : g.Prints ts s text us s') : Token.Causes limit .print ⟨.glyph g, o⟩ := by
  refine .mark rfl ?_
  cases h <;> decide

namespace Machine

theorem Enters.effect?_eq (h : Enters limit depth f rest s m) : m.effect? = none := by
  cases h <;> rfl

theorem EntersIf.effect?_eq {predicate command : Fragment}
    (h : EntersIf limit depth predicate command rest past s m) : m.effect? = none := by
  cases h with
  | holding _ he => exact he.effect?_eq
  | _ => rfl

/-- A step that has an effect takes up a token that causes it. -/
theorem Steps.causes (h : Steps limit tasks s m) (he : m.effect? = some e) :
    ∃ depth t ts rest, tasks = .code depth (t :: ts) :: rest ∧ t.Causes limit e := by
  cases h with
  | ask depth ts rest h =>
    cases he
    exact ⟨depth, _, ts, rest, rfl, h.causes⟩
  | snapshot depth ts rest h => exact ⟨depth, _, ts, rest, rfl, h.causes he⟩
  | print depth o rest h =>
    cases he
    exact ⟨depth, _, _, rest, rfl, h.causes⟩
  | block _ _ _ _ _ h | times _ _ _ h => cases h.effect?_eq.symm.trans he
  | once _ _ _ _ h | loop _ _ h => cases h.effect?_eq.symm.trans he
  | _ => cases he

end Machine

/-- A token whose mark is a character of the text, as all marks in it are. -/
structure Token.WrittenIn (whole : Text) (t : Token) : Prop where
  mark : ∀ c, t.form.mark? = some c → c ∈ whole
  carried : ∀ f ∈ t.form.fragments, f.text <:+: whole

variable {whole : Text}

theorem Fragment.writtenIn_of_tokens (hf : f.text <:+: whole) (hts : f.tokens limit = .ok ts)
    (ht : t ∈ ts) : t.WrittenIn whole := by
  have hscan := scan_of_tokens hts
  refine ⟨fun c hc => ?_, fun g hg => ?_⟩
  · obtain ⟨a, d, r, n, htext, -, hreads⟩ := hscan.of_mem ht
    rw [hreads.eq_of_mark? hc]
    exact hf.mem (htext ▸ by simp)
  · obtain ⟨k, -, hslice, -⟩ := hscan.carried ht hg
    exact hslice.isInfix.trans hf

theorem Token.WrittenIn.fused {u : Token} (hu : u.WrittenIn whole)
    (h : PushMarker.fused? u.form = some t.form) : t.WrittenIn whole where
  mark c hc := by
    obtain ⟨hinput, rfl⟩ := PushMarker.eq_of_mark? h hc
    exact hu.mark '&' (by rw [hinput]; rfl)
  carried f hf := by
    rcases PushMarker.fused?_cases h with ⟨_, ht⟩ | ⟨_, _, ht⟩ | ⟨_, _, ht⟩ <;>
      simp [ht, Form.fragments] at hf

private theorem Token.WrittenIn.mark_mem (h : t.WrittenIn whole) (hc : t.Causes limit e) :
    ∃ c ∈ e.marks, c ∈ whole := by
  cases hc with
  | mark hm he => exact ⟨_, he, h.mark _ hm⟩
  | body hf hts hu hm he =>
    have hbody := h.carried _ (Form.code_subset _ hf)
    exact ⟨_, he, (Fragment.writtenIn_of_tokens hbody hts hu).mark _ hm⟩

theorem Machine.invariant_writtenIn (limit : Nat) (whole : Text) :
    Invariant limit (Token.WrittenIn whole) (fun f => f.text <:+: whole) fun _ => True where
  carried ht := ht.carried
  read hf h _ ht := Fragment.writtenIn_of_tokens hf h ht
  fused hu h := hu.fused h
  acts _ _ _ := trivial
  asks _ _ _ _ := trivial
  prints _ _ := trivial
  printed _ _ := trivial
  stores _ _ := trivial

namespace Session

variable {σ : Type} [Host σ] {a z : Session σ} {source : Text} {host : σ}

/-- The effects of a run so far, the latest first. -/
def effects (a : Session σ) : List Effect := a.calls.filterMap Call.effect?

theorem Next.effects_eq (h : Next limit a z) :
    z.effects = (a.machine.step limit).effect?.toList ++ a.effects := by
  obtain ⟨_, hm, hgoes⟩ := h.goes
  rw [hm]
  cases hgoes with
  | silent m => rfl
  | tell n m => cases he : (Call.notice n).effect? <;> simp [effects, call, Move.effect?, he]
  | ask resume => rfl

theorem Reaches.marked (hts : programTokens limit source = .ok ts)
    (hz : (start ts host).Reaches limit z) :
    ∀ e ∈ z.effects, ∃ c ∈ e.marks, c ∈ (Fragment.ofSource source).text := by
  induction hz with
  | refl => exact fun e he => absurd he List.not_mem_nil
  | @tail a z ha hn ih =>
    intro e he
    rw [hn.effects_eq, List.mem_append, Option.mem_toList] at he
    rcases he with he | he
    · have hmeets := (Machine.invariant_writtenIn limit (Fragment.ofSource source).text).reaches
        hts List.infix_rfl trivial ha
      obtain ⟨depth, t, us, rest, htasks, hcauses⟩ :=
        (Machine.steps_step limit a.machine).causes he
      have ht : t.WrittenIn (Fragment.ofSource source).text :=
        Task.Meets.front (htasks ▸ hmeets.tasks)
      exact ht.mark_mem hcauses
    · exact ih e he

end Session

end BlueNexus
