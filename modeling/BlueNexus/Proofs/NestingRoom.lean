import BlueNexus.Proofs.MachineRules
import BlueNexus.Proofs.PushMarkers
import BlueNexus.Proofs.SessionRuns
import BlueNexus.Proofs.TokenScan

/-!
# Room for nested code

The nesting limit is asked in two places: where a fragment is read, and where its code is entered.
A condition on fragments and depths that passes from code to the code nested in it, and leaves room
in both places, keeps a whole run from being cut off (`report_uncut`).
-/

namespace BlueNexus

/-- The fault is not one of nesting. -/
def Fault.Uncut (e : Fault) : Prop := ∀ o l, e ≠ .nestingTooDeep o l

/-- Reading the fragment is not cut off. -/
def Fragment.Uncut (limit : Nat) (f : Fragment) : Prop :=
  ∀ e, f.tokens limit = .error e → e.Uncut

/-- A token whose fragments can be read and whose code meets the condition at its depth. -/
structure Token.Fits (limit : Nat) (P : Nat → Fragment → Prop) (depth : Nat) (t : Token) :
    Prop where
  uncut : ∀ f ∈ t.form.fragments, f.Uncut limit
  code : ∀ f ∈ t.form.code, P depth f

/-- A condition on fragments, each at the depth from which it is entered, that leaves room for them
and holds of what is nested in them. -/
structure Nesting.Room (limit : Nat) (P : Nat → Fragment → Prop) : Prop where
  lt_limit : ∀ {depth f}, P depth f → depth < limit
  uncut : ∀ {depth f}, P depth f → f.Uncut limit
  nested : ∀ {depth f ts}, P depth f → f.tokens limit = .ok ts →
    ∀ t ∈ ts, t.Fits limit P (depth + 1)

def Task.Fits (limit : Nat) (P : Nat → Fragment → Prop) : Task → Prop
  | .code depth ts => ∀ t ∈ ts, t.Fits limit P depth
  | .store _ => True
  | .loop depth predicate command => predicate.Uncut limit ∧ P depth command
  | .times depth _ command => P depth command

def Machine.Fits (limit : Nat) (P : Nat → Fragment → Prop) (m : Machine) : Prop :=
  ∀ t ∈ m.tasks, t.Fits limit P

variable {limit : Nat} {P : Nat → Fragment → Prop}

namespace PushMarker

theorem carries_nothing_of_fused? {f g : Form} (h : fused? f = some g) :
    g.fragments = [] ∧ g.code = [] := by
  rcases fused?_cases h with ⟨-, rfl⟩ | ⟨n, -, rfl⟩ | ⟨x, -, rfl⟩ <;> exact ⟨rfl, rfl⟩

private theorem fits_fuse {depth : Nat} {ts : List Token} (h : ∀ t ∈ ts, t.Fits limit P depth) :
    ∀ t ∈ fuse ts, t.Fits limit P depth := by
  intro t ht
  rcases mem_fuse ht with ht | ⟨u, -, hu⟩
  · exact h t ht
  · obtain ⟨hfragments, hcode⟩ := carries_nothing_of_fused? hu
    constructor
    · simp [hfragments]
    · simp [hcode]

end PushMarker

namespace Machine

variable {tasks rest past : List Task} {s : State} {m : Move} {depth : Nat}

theorem Enters.fits {f : Fragment} (h : Enters limit depth f rest s m)
    (hP : Nesting.Room limit P) (hf : P depth f) (hrest : ∀ t ∈ rest, t.Fits limit P) :
    m.Leads (Machine.Fits limit P) Fault.Uncut := by
  cases h with
  | unreadable h => exact hP.uncut hf _ h
  | tooDeep h hd =>
    have hlt := hP.lt_limit hf
    omega
  | entered h hd => exact List.forall_mem_cons.2 ⟨hP.nested hf h, hrest⟩

theorem EntersIf.fits {predicate command : Fragment}
    (h : EntersIf limit depth predicate command rest past s m) (hP : Nesting.Room limit P)
    (hp : predicate.Uncut limit) (hc : P depth command) (hrest : ∀ t ∈ rest, t.Fits limit P)
    (hpast : ∀ t ∈ past, t.Fits limit P) : m.Leads (Machine.Fits limit P) Fault.Uncut := by
  cases h with
  | unreadable h => exact hp _ h
  | passed h => exact hpast
  | holding h he => exact he.fits hP hc hrest

/-- A step keeps to the condition, and is not cut off. -/
theorem Steps.fits (h : Steps limit tasks s m) (hP : Nesting.Room limit P)
    (ht : ∀ t ∈ tasks, t.Fits limit P) : m.Leads (Machine.Fits limit P) Fault.Uncut := by
  have behind : ∀ {depth : Nat} {ts us : List Token} {rest : List Task}, us <:+ ts →
      (∀ t ∈ Task.code depth ts :: rest, t.Fits limit P) →
        ∀ t ∈ Task.code depth us :: rest, t.Fits limit P := by
    intro depth ts us rest hs h
    obtain ⟨hcode, hrest⟩ := List.forall_mem_cons.1 h
    exact List.forall_mem_cons.2 ⟨fun t ht => hcode t (hs.mem ht), hrest⟩
  have front : ∀ {depth : Nat} {t : Token} {ts : List Token} {rest : List Task},
      (∀ u ∈ Task.code depth (t :: ts) :: rest, u.Fits limit P) → t.Fits limit P depth :=
    fun h => h _ List.mem_cons_self _ List.mem_cons_self
  have tail : ∀ {depth : Nat} {t : Token} {ts : List Token} {rest : List Task},
      (∀ u ∈ Task.code depth (t :: ts) :: rest, u.Fits limit P) →
        ∀ u ∈ Task.code depth ts :: rest, u.Fits limit P :=
    fun h => behind (List.suffix_cons _ _) h
  cases h with
  | halted | done => trivial
  | codeOver | store | timesOver => exact fun t h => ht t (List.mem_cons_of_mem _ h)
  | act | snapshot => exact tail ht
  | ask => exact fun n => tail ht
  | print depth o rest h | printNothing depth o rest h =>
    exact behind (h.suffix.trans (List.suffix_cons _ _)) ht
  | printUnbound | pushUnbound => simp [Move.Leads, Fault.Uncut]
  | block depth o ts rest hm h =>
    refine h.fits hP ((front ht).code _ (by simp [Form.code])) ?_
    exact List.forall_mem_cons.2 ⟨trivial, tail ht⟩
  | @once predicate command s m depth o ts rest h =>
    have hfront := front ht
    have hp := hfront.uncut predicate (by simp [Form.fragments])
    have hc := hfront.code command (by simp [Form.code])
    exact h.fits hP hp hc (tail ht) (tail ht)
  | whilst predicate command s depth o ts rest =>
    have hfront := front ht
    refine List.forall_mem_cons.2 ⟨⟨?_, ?_⟩, tail ht⟩
    · exact hfront.uncut _ (by simp [Form.fragments])
    · exact hfront.code _ (by simp [Form.code])
  | each predicate command s depth o ts rest =>
    have hcommand : P depth command := (front ht).code _ (by simp [Form.code])
    exact List.forall_mem_cons.2 ⟨hcommand, tail ht⟩
  | loop depth rest h =>
    obtain ⟨hloop, hrest⟩ := List.forall_mem_cons.1 ht
    exact h.fits hP hloop.1 hloop.2 ht hrest
  | times depth n rest h =>
    obtain ⟨hc, hrest⟩ := List.forall_mem_cons.1 ht
    exact h.fits hP hc (List.forall_mem_cons.2 ⟨hc, hrest⟩)

end Machine

variable {σ : Type} [Host σ] {settings : Settings} {source : Text} {host : σ} {steps : Nat}
  {report : Report σ}

/-- A program whose tokens meet the condition is never cut off. -/
theorem report_uncut (hP : Nesting.Room settings.limit P)
    (hread : (Fragment.ofSource source).Uncut settings.limit)
    (hts : ∀ ts, (Fragment.ofSource source).tokens settings.limit = .ok ts →
      ∀ t ∈ ts, t.Fits settings.limit P 0)
    (hr : runProgram settings source host steps = some report) :
    ∀ e, report.fault = some e → e.Uncut := by
  rcases exists_runProgram_iff.1 ⟨steps, hr⟩ with ⟨e, ht, rfl⟩ | ⟨ts, z, f, ht, hz, rfl⟩
  · intro e' he
    cases he
    exact hread e (programTokens_eq_error_iff.1 ht)
  · intro e he
    have hf : f = some e := he
    subst hf
    obtain ⟨us, hus, rfl⟩ := programTokens_eq_ok_iff.1 ht
    refine hz.failure (P := Machine.Fits settings.limit P)
      (fun m hm => (Machine.steps_step _ m).fits hP hm) ?_
    exact List.forall_mem_singleton.2 (PushMarker.fits_fuse (hts us hus))

end BlueNexus
