import BlueNexus.Proofs.MachineFrame

/-!
# The tokens behind a token

A print looks at the token behind it and takes it if it is a variable. No other token depends on
what stands behind it (`Steps.token`).
-/

namespace BlueNexus

/-- The variable that a print right in front of the tokens is about. -/
def Token.mention? : List Token → Option (Name × Nat)
  | ⟨.variable x, o⟩ :: _ => some (x, o)
  | _ => none

/-- Whether the form prints what follows it. -/
def Form.prints (f : Form) : Bool := f = .glyph .printNumber ∨ f = .glyph .printChar

/-- The tokens that a token leaves of those behind it. -/
def Token.leave (t : Token) (ts : List Token) : List Token :=
  if t.form.prints ∧ (mention? ts).isSome then ts.tail else ts

namespace Token

variable {t : Token} {ts us : List Token} {x : Name} {o : Nat}

theorem mention?_eq_some_iff : mention? ts = some (x, o) ↔ ∃ us, ts = ⟨.variable x, o⟩ :: us := by
  constructor
  · intro h
    unfold mention? at h
    split at h
    · next us =>
      cases h
      exact ⟨us, rfl⟩
    · cases h
  · rintro ⟨us, rfl⟩
    rfl

theorem mention?_eq_none (h : ∀ x o us, ts ≠ ⟨.variable x, o⟩ :: us) : mention? ts = none := by
  cases hm : mention? ts with
  | none => rfl
  | some p =>
    obtain ⟨us, hus⟩ := mention?_eq_some_iff.1 hm
    exact absurd hus (h _ _ us)

theorem leave_of_mention? (h : mention? ts = none) : t.leave ts = ts := if_neg (by simp [h])

theorem leave_of_prints (h : t.form.prints = false) : t.leave ts = ts := if_neg (by simp [h])

theorem leave_suffix_of : t.leave ts <:+ ts := by
  unfold leave
  split
  · exact List.tail_suffix ts
  · exact List.suffix_rfl

end Token

open Token

variable {limit depth : Nat} {s s' : State}

theorem Form.Acts.prints {f : Form} (h : f.Acts limit s s') : f.prints = false := by
  cases h with
  | operate s hg =>
    simp only [List.mem_cons, not_or] at hg
    simp [Form.prints, hg.1, hg.2.1]
  | _ => rfl

theorem Form.Asks.prints {f : Form} {resume : Int64 → State} (h : f.Asks limit s resume) :
    f.prints = false := by
  cases h <;> rfl

theorem Form.Shows.prints {f : Form} {n : Notice} (h : f.Shows s n) : f.prints = false := by
  cases h <;> rfl

theorem Glyph.Prints.congr {g : Glyph} {ts us : List Token} {t : Option Text} (o : Nat)
    (h : g.Prints ts s t us s') :
    us = leave ⟨.glyph g, o⟩ ts ∧
      ∀ ts', ((Form.glyph g).prints = true → mention? ts' = mention? ts) →
        g.Prints ts' s t (leave ⟨.glyph g, o⟩ ts') s' := by
  have behind : ∀ {ts' : List Token}, mention? ts' = none →
      ∀ x o us, ts' ≠ ⟨.variable x, o⟩ :: us := by
    rintro _ h x o us rfl
    cases h
  cases h with
  | newline ts s =>
    refine ⟨(leave_of_prints rfl).symm, fun ts' _ => ?_⟩
    rw [leave_of_prints rfl]
    exact .newline ts' s
  | topNumber s h =>
    have hnone := mention?_eq_none h
    refine ⟨(leave_of_mention? hnone).symm, fun ts' hts => ?_⟩
    rw [leave_of_mention? ((hts rfl).trans hnone)]
    exact .topNumber s (behind ((hts rfl).trans hnone))
  | topChar s h =>
    have hnone := mention?_eq_none h
    refine ⟨(leave_of_mention? hnone).symm, fun ts' hts => ?_⟩
    rw [leave_of_mention? ((hts rfl).trans hnone)]
    exact .topChar s (behind ((hts rfl).trans hnone))
  | whole o ts h =>
    refine ⟨rfl, fun ts' hts => ?_⟩
    obtain ⟨us, rfl⟩ := mention?_eq_some_iff.1 (hts rfl)
    exact .whole o us h
  | front o ts h =>
    refine ⟨rfl, fun ts' hts => ?_⟩
    obtain ⟨us, rfl⟩ := mention?_eq_some_iff.1 (hts rfl)
    exact .front o us h

namespace Machine

variable {tasks rest : List Task} {m : Move}

theorem Enters.split {f : Fragment} (front : List Task)
    (h : Enters limit depth f (front ++ rest) s m) :
    ∃ n : Move, m = n.before rest ∧
      ∀ rest', Enters limit depth f (front ++ rest') s (n.before rest') := by
  cases h with
  | @unreadable e h => exact ⟨.failed e s, rfl, fun _ => .unreadable h⟩
  | tooDeep h hd => exact ⟨.failed (.nestingTooDeep f.offset limit) s, rfl, fun _ => .tooDeep h hd⟩
  | @entered ts h hd =>
    exact ⟨.silent ⟨.code (depth + 1) ts :: front, s⟩, rfl, fun _ => .entered h hd⟩

theorem EntersIf.split {predicate command : Fragment}
    (h : EntersIf limit depth predicate command rest rest s m) :
    ∃ n : Move, m = n.before rest ∧
      ∀ rest', EntersIf limit depth predicate command rest' rest' s (n.before rest') := by
  cases h with
  | @unreadable e h => exact ⟨.failed e s, rfl, fun _ => .unreadable h⟩
  | passed h => exact ⟨.silent ⟨[], s⟩, rfl, fun _ => .passed h⟩
  | holding h he =>
    obtain ⟨n, hm, hn⟩ := Enters.split [] he
    exact ⟨n, hm, fun rest' => .holding h (hn rest')⟩

/-- What a token does depends on the tokens behind it by the variable in front of them alone, and on
that only if it prints. -/
theorem Steps.token {t : Token} {ts : List Token}
    (h : Steps limit (.code depth (t :: ts) :: rest) s m) :
    ∃ n : Move, m = n.before (.code depth (t.leave ts) :: rest) ∧
      ∀ ts' rest', (t.form.prints = true → mention? ts' = mention? ts) →
        Steps limit (.code depth (t :: ts') :: rest') s
          (n.before (.code depth (t.leave ts') :: rest')) := by
  have stay : ∀ {t : Token} {m n : Move}, t.form.prints = false →
      m = n.before (.code depth ts :: rest) →
      (∀ ts' rest', Steps limit (.code depth (t :: ts') :: rest') s
        (n.before (.code depth ts' :: rest'))) →
      ∃ n : Move, m = n.before (.code depth (t.leave ts) :: rest) ∧
        ∀ ts' rest', (t.form.prints = true → mention? ts' = mention? ts) →
          Steps limit (.code depth (t :: ts') :: rest') s
            (n.before (.code depth (t.leave ts') :: rest')) := by
    intro t m n hp hm h
    refine ⟨n, by rw [leave_of_prints hp, hm], fun ts' rest' _ => ?_⟩
    rw [leave_of_prints hp]
    exact h ts' rest'
  cases h with
  | halted h => exact ⟨.finished, rfl, fun _ _ _ => .halted h⟩
  | @act _ _ s' _ _ _ h =>
    exact stay (n := .silent ⟨[], s'⟩) h.prints rfl fun ts' rest' => .act depth ts' rest' h
  | @ask _ _ resume _ _ _ h =>
    exact stay (n := .ask fun n => ⟨[], resume n⟩) h.prints rfl
      fun ts' rest' => .ask depth ts' rest' h
  | @snapshot _ _ n _ _ _ h =>
    exact stay (n := .tell n ⟨[], s⟩) h.prints rfl fun ts' rest' => .snapshot depth ts' rest' h
  | @print _ _ _ t us s' _ o _ h =>
    obtain ⟨hus, hcongr⟩ := h.congr o
    exact ⟨.tell (.output t) ⟨[], s'.print t⟩, by rw [← hus]; rfl,
      fun ts' rest' hts => .print depth o rest' (hcongr ts' hts)⟩
  | @printNothing _ _ _ us s' _ o _ h =>
    obtain ⟨hus, hcongr⟩ := h.congr o
    exact ⟨.silent ⟨[], s'⟩, by rw [← hus]; rfl,
      fun ts' rest' hts => .printNothing depth o rest' (hcongr ts' hts)⟩
  | @printUnbound g x _ _ o o' ts _ hg h =>
    refine ⟨.failed (.undefinedVariable o' x) s, rfl, fun ts' rest' hts => ?_⟩
    have hprints : (Form.glyph g).prints = true := by simpa [Form.prints] using hg
    obtain ⟨us, rfl⟩ := mention?_eq_some_iff.1 (hts hprints)
    exact .printUnbound depth o o' us rest' hg h
  | @pushUnbound x _ _ o _ _ h =>
    exact stay (n := .failed (.undefinedVariable o x) s) rfl rfl
      fun ts' rest' => .pushUnbound depth o ts' rest' h
  | @block x body _ _ _ o _ _ hm h =>
    obtain ⟨n, hn, hsplit⟩ := Enters.split [.store x] h
    exact stay rfl hn fun ts' rest' => .block depth o ts' rest' hm (hsplit _)
  | @once predicate command _ _ _ o _ _ h =>
    obtain ⟨n, hn, hsplit⟩ := h.split
    exact stay rfl hn fun ts' rest' => .once depth o ts' rest' (hsplit _)
  | whilst predicate command _ _ o _ _ =>
    exact stay (n := .silent ⟨[.loop depth predicate command], s⟩) rfl rfl
      fun ts' rest' => .whilst predicate command s depth o ts' rest'
  | each predicate command _ _ o _ _ =>
    exact stay (n := .silent ⟨[.times depth (Condition.elements s predicate) command], s⟩) rfl rfl
      fun ts' rest' => .each predicate command s depth o ts' rest'

end Machine

end BlueNexus
