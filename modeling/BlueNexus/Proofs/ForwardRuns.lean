import BlueNexus.Host.Recorder
import BlueNexus.Proofs.HostEffects
import BlueNexus.Proofs.LoopTermination

/-!
# Runs that go through the text once

In a text without loops every token has a stretch of its own, behind those of the tokens before it,
and what it carries lies within its stretch (`Token.Laid`). A run takes up what is nested in a token
before it goes on with the next, so it goes from left to right and never comes back
(`Machine.Steps.advances`). Each effect on the host uses up a mark in the text
(`effects_bounded_by_text`).
-/

namespace BlueNexus

open Text

/-- How a loop over the elements of a sequence is written. -/
def eachMark : Text := ['?', '[', '!', '∑', ']']

/-- No loop is written in the text. -/
structure Text.Loopless (t : Text) : Prop where
  whilst : ¬whilstMark <:+: t
  each : ¬eachMark <:+: t

namespace Token

/-- The stretch from `a` to `b` is that of the token. All that it executes lies within, and it
begins no loop. -/
structure Spans (whole : Text) (a b : Nat) (t : Token) : Prop where
  after : a ≤ t.offset
  before : t.offset < b
  mark : ∀ c, t.form.mark? = some c → ∃ p, a ≤ p ∧ p < b ∧ whole[p]? = some c
  code : ∀ f ∈ t.form.code,
    t.offset < f.offset ∧ f.offset + f.text.length ≤ b ∧ Slice whole f.offset f.text
  loopless : ∀ kind predicate command, t.form = .conditional kind predicate command →
    kind ≠ .whilst ∧ kind ≠ .each

/-- The tokens have stretches between `a` and `d`, one behind the other. -/
inductive Laid (whole : Text) : Nat → List Token → Nat → Prop
  | nil {a d} (h : a ≤ d) : Laid whole a [] d
  | cons {a b d t ts} (ht : t.Spans whole a b) (hs : Laid whole b ts d) : Laid whole a (t :: ts) d

variable {whole : Text} {a a' b b' d : Nat} {t u : Token} {ts us : List Token}

theorem Spans.lt (h : t.Spans whole a b) : a < b := Nat.lt_of_le_of_lt h.after h.before

private theorem Spans.wider (h : t.Spans whole a b) (ha : a' ≤ a) (hb : b ≤ b') :
    t.Spans whole a' b' where
  after := ha.trans h.after
  before := h.before.trans_le hb
  mark c hc := by
    obtain ⟨p, hap, hpb, hp⟩ := h.mark c hc
    exact ⟨p, ha.trans hap, hpb.trans_le hb, hp⟩
  code f hf := by
    obtain ⟨hlt, hle, hslice⟩ := h.code f hf
    exact ⟨hlt, hle.trans hb, hslice⟩
  loopless := h.loopless

theorem Laid.from_le (h : Laid whole a ts d) (ha : a' ≤ a) : Laid whole a' ts d := by
  cases h with
  | nil h => exact .nil (ha.trans h)
  | cons ht hs => exact .cons (ht.wider ha le_rfl) hs

theorem Laid.le (h : Laid whole a ts d) : a ≤ d := by
  induction h with
  | nil h => exact h
  | cons ht _ ih => exact ht.lt.le.trans ih

theorem Laid.of_mem (h : Laid whole a ts d) (ht : t ∈ ts) :
    ∃ b b', a ≤ b ∧ b' ≤ d ∧ t.Spans whole b b' := by
  induction h with
  | nil => cases ht
  | @cons a b d u us hu hs ih =>
    rcases List.mem_cons.1 ht with rfl | ht
    · exact ⟨a, b, le_rfl, hs.le, hu⟩
    · obtain ⟨b₁, b₂, hb, hd, ht⟩ := ih ht
      exact ⟨b₁, b₂, hu.lt.le.trans hb, hd, ht⟩

end Token

open Token

variable {limit offset n : Nat} {breaks : List Nat} {c : Char} {r t whole : Text}
  {ts us : List Token} {a b d q q' : Nat} {e : Effect}

theorem Form.Reads.spans {form : Form} (h : Reads limit breaks offset c r (.ok ⟨some form, n⟩))
    (hw : whole.Loopless) (hs : Slice whole offset (c :: r)) :
    Spans whole offset (offset + 1 + n) ⟨form, offset⟩ where
  after := le_rfl
  before := by
    change offset < offset + 1 + n
    omega
  mark d hd := by
    cases h.eq_of_mark? hd
    exact ⟨offset, le_rfl, by omega, hs.getElem?⟩
  code f hf := by
    have hcarried := h.carried_end_le (Form.code_subset form hf)
    obtain ⟨k, hk, hslice⟩ := h.carried (Form.code_subset form hf)
    refine ⟨?_, hcarried, hk ▸ hs.tail.trans hslice⟩
    change offset < f.offset
    omega
  loopless kind predicate command hf := by
    cases hf
    have hkind := h.kind_prefix_of.isInfix.trans hs.isInfix
    constructor
    · rintro rfl
      exact hw.whilst hkind
    · rintro rfl
      exact hw.each hkind

private theorem Fragment.Scan.laid (h : Scan limit breaks offset t ts) (hw : whole.Loopless)
    (hs : Slice whole offset t) : Laid whole offset ts (offset + t.length) := by
  induction h with
  | done => exact .nil le_rfl
  | @form offset c r f n ts h _ ih =>
    have hn : n ≤ r.length := h.extent_le
    have hlaid := ih (hs.tail.drop n)
    rw [List.length_drop] at hlaid
    refine .cons (h.spans hw hs) ?_
    rwa [List.length_cons, show offset + (r.length + 1) = offset + 1 + n + (r.length - n) by omega]
  | @nameless offset c r n ts h _ ih =>
    have hn : n ≤ r.length := h.extent_le
    have hlaid := ih (hs.tail.drop n)
    rw [List.length_drop] at hlaid
    have hle : offset ≤ offset + 1 + n := by omega
    rw [List.length_cons, show offset + (r.length + 1) = offset + 1 + n + (r.length - n) by omega]
    exact hlaid.from_le hle

theorem Fragment.laid_of_tokens {f : Fragment} (h : f.tokens limit = .ok ts) (hw : whole.Loopless)
    (hs : Slice whole f.offset f.text) : Laid whole f.offset ts (f.offset + f.text.length) :=
  (scan_of_tokens h).laid hw hs

theorem Token.Spans.fused {m u : Token} {form : Form} (hm : m.Spans whole a b)
    (hu : u.Spans whole b d) (h : PushMarker.fused? u.form = some form) :
    Spans whole a d ⟨form, m.offset⟩ where
  after := hm.after
  before := hm.before.trans hu.lt
  mark c hc := by
    obtain ⟨hinput, rfl⟩ := PushMarker.eq_of_mark? h hc
    obtain ⟨p, hbp, hpd, hp⟩ := hu.mark '&' (by rw [hinput]; rfl)
    exact ⟨p, hm.lt.le.trans hbp, hpd, hp⟩
  code f hf := by
    rcases PushMarker.fused?_cases h with ⟨_, rfl⟩ | ⟨_, _, rfl⟩ | ⟨_, _, rfl⟩ <;> cases hf
  loopless kind predicate command hf := by
    rcases PushMarker.fused?_cases h with ⟨_, rfl⟩ | ⟨_, _, rfl⟩ | ⟨_, _, rfl⟩ <;> cases hf

private theorem PushMarker.laid_fuse (h : Laid whole a ts d) : Laid whole a (fuse ts) d := by
  fun_induction fuse ts generalizing a with
  | case1 | case2 => exact h
  | case3 m u r hm f hf ih =>
    cases h with
    | cons hm hs =>
      cases hs with
      | cons hu hs => exact .cons (hm.fused hu hf) (ih hs)
  | case4 m u r hm hf ih | case5 m u r hm ih =>
    cases h with
    | cons ht hs => exact .cons ht (ih hs)

theorem Token.Spans.mark_of_causes {t : Token} (h : t.Spans whole a b) (hw : whole.Loopless)
    (hc : t.Causes limit e) : ∃ p c, a ≤ p ∧ p < b ∧ whole[p]? = some c ∧ c ∈ e.marks := by
  cases hc with
  | mark hm he =>
    obtain ⟨p, hap, hpb, hp⟩ := h.mark _ hm
    exact ⟨p, _, hap, hpb, hp, he⟩
  | body hf hts hu hm he =>
    obtain ⟨hlt, hle, hslice⟩ := h.code _ hf
    obtain ⟨b₁, b₂, hb, hd, hspans⟩ := (Fragment.laid_of_tokens hts hw hslice).of_mem hu
    obtain ⟨p, hap, hpb, hp⟩ := hspans.mark _ hm
    have hafter := h.after
    exact ⟨p, _, by omega, by omega, hp, he⟩

namespace Machine

/-- The offset of the variable that a form takes along, if there is one right behind it. -/
def operand : Form → List Token → List Nat
  | .glyph .printNumber, ⟨.variable _, o⟩ :: _ => [o]
  | .glyph .printChar, ⟨.variable _, o⟩ :: _ => [o]
  | _, _ => []

/-- The offsets of the tokens that the next step takes up. -/
def taken : List Task → List Nat
  | .code _ (t :: ts) :: _ => t.offset :: operand t.form ts
  | _ => []

/-- What is left to do stands in the text from `q` on, in the order in which it will be done. -/
inductive Forward (whole : Text) : Nat → List Task → Prop
  | done (q : Nat) : Forward whole q []
  | code {q b : Nat} {depth ts rest} (h : Laid whole q ts b) (hrest : Forward whole b rest) :
      Forward whole q (.code depth ts :: rest)
  | store {q : Nat} {x rest} (h : Forward whole q rest) : Forward whole q (.store x :: rest)

theorem Forward.from_le {tasks : List Task} (h : Forward whole q tasks) (hq : q' ≤ q) :
    Forward whole q' tasks := by
  induction h with
  | done => exact .done q'
  | code h hrest _ => exact .code (h.from_le hq) hrest
  | store _ ih => exact .store (ih hq)

theorem eq_of_mem_operand {form : Form} {o : Nat} (h : o ∈ operand form ts) :
    ∃ x us, ts = ⟨.variable x, o⟩ :: us := by
  unfold operand at h
  split at h
  · exact ⟨_, _, by rw [List.mem_singleton.1 h]⟩
  · exact ⟨_, _, by rw [List.mem_singleton.1 h]⟩
  · cases h

theorem operand_eq_nil {form : Form} (hn : form ≠ .glyph .printNumber)
    (hc : form ≠ .glyph .printChar) : operand form ts = [] := by
  unfold operand
  split
  · contradiction
  · contradiction
  · rfl

private theorem Forward.le_taken {tasks : List Task} (h : Forward whole q tasks) :
    ∀ o ∈ taken tasks, q ≤ o := by
  cases h with
  | done | store => exact fun o ho => absurd ho List.not_mem_nil
  | code h _ =>
    cases h with
    | nil => exact fun o ho => absurd ho List.not_mem_nil
    | cons ht hs =>
      refine List.forall_mem_cons.2 ⟨ht.after, fun o ho => ?_⟩
      obtain ⟨x, us, rfl⟩ := eq_of_mem_operand ho
      cases hs with
      | cons hu _ => exact ht.lt.le.trans hu.after

end Machine

/-- From `q` on to `q'`, a step takes up its tokens, and a mark if it has an effect. -/
structure Machine.Advances (whole : Text) (tasks : List Task) (effect : Option Effect)
    (q q' : Nat) : Prop where
  le : q ≤ q'
  taken : ∀ o ∈ taken tasks, o < q'
  mark : ∀ e, effect = some e → ∃ p c, q ≤ p ∧ p < q' ∧ whole[p]? = some c ∧ c ∈ e.marks

open Machine

variable {depth : Nat} {s s' : State} {rest past tasks : List Task} {m : Move} {f : Fragment}

theorem Form.Acts.operand_eq_nil {form : Form} (h : form.Acts limit s s') :
    operand form ts = [] := by
  cases h with
  | operate s hg =>
    refine Machine.operand_eq_nil ?_ ?_
    all_goals
      rintro ⟨⟩
      simp at hg
  | _ => rfl

theorem Form.Asks.operand_eq_nil {form : Form} {resume : Int64 → State}
    (h : form.Asks limit s resume) : operand form ts = [] := by
  cases h <;> rfl

theorem Form.Shows.operand_eq_nil {form : Form} {n : Notice} (h : form.Shows s n) :
    operand form ts = [] := by
  cases h <;> rfl

/-- Of the tokens behind a form, those that it leaves stand behind what it takes along. -/
def Machine.Leaves (whole : Text) (form : Form) (ts us : List Token) : Prop :=
  ∀ b d, Laid whole b ts d →
    ∃ q, b ≤ q ∧ Laid whole q us d ∧ ∀ o ∈ operand form ts, o < q

theorem Machine.leaves_of_operand_eq_nil {form : Form} (h : operand form ts = []) :
    Leaves whole form ts ts :=
  fun b _ hs => ⟨b, le_rfl, hs, by simp [h]⟩

theorem Glyph.Prints.leaves {g : Glyph} {text : Option Text} (h : g.Prints ts s text us s') :
    Leaves whole (.glyph g) ts us := by
  cases h with
  | newline => exact leaves_of_operand_eq_nil rfl
  | topNumber s h | topChar s h =>
    refine leaves_of_operand_eq_nil (List.eq_nil_iff_forall_not_mem.2 fun o ho => ?_)
    obtain ⟨x, us, hus⟩ := eq_of_mem_operand ho
    exact h x o us hus
  | whole o ts h | front o ts h =>
    intro b d hs
    cases hs with
    | cons hu hs =>
      refine ⟨_, hu.lt.le, hs, fun p hp => ?_⟩
      rw [List.mem_singleton.1 hp]
      exact hu.before

namespace Machine

theorem Enters.forward (h : Enters limit depth f rest s m) (hw : whole.Loopless)
    (hs : Slice whole f.offset f.text) (hrest : Forward whole (f.offset + f.text.length) rest) :
    m.Leads (fun n => Forward whole f.offset n.tasks) fun _ => True := by
  cases h with
  | unreadable | tooDeep => trivial
  | entered hts => exact .code (Fragment.laid_of_tokens hts hw hs) hrest

theorem EntersIf.forward {predicate command : Fragment}
    (h : EntersIf limit depth predicate command rest rest s m) (hw : whole.Loopless)
    (hs : Slice whole command.offset command.text)
    (hrest : Forward whole (command.offset + command.text.length) rest) :
    m.Leads (fun n => Forward whole command.offset n.tasks) fun _ => True := by
  cases h with
  | unreadable => trivial
  | passed => exact hrest.from_le (Nat.le_add_right _ _)
  | holding _ he => exact he.forward hw hs hrest

theorem Forward.advances (limit : Nat) {t : Token} {effect : Option Effect}
    (h : Forward whole q (.code depth (t :: ts) :: rest)) (hw : whole.Loopless)
    (hus : Leaves whole t.form ts us) (he : ∀ e, effect = some e → t.Causes limit e) :
    ∃ q', Advances whole (.code depth (t :: ts) :: rest) effect q q' ∧
      Forward whole q' (.code depth us :: rest) := by
  cases h with
  | code h hrest =>
    cases h with
    | cons ht hs =>
      obtain ⟨q', hle, hlaid, ho⟩ := hus _ _ hs
      refine ⟨q', ⟨ht.lt.le.trans hle, ?_, fun e heff => ?_⟩, .code hlaid hrest⟩
      · exact List.forall_mem_cons.2 ⟨ht.before.trans_le hle, ho⟩
      · obtain ⟨p, c, hqp, hpb, hp⟩ := ht.mark_of_causes hw (he e heff)
        exact ⟨p, c, hqp, hpb.trans_le hle, hp⟩

/-- The code of the next token stands before what is left to do behind it. -/
theorem Forward.before_rest {t : Token} (h : Forward whole q (.code depth (t :: ts) :: rest))
    (hf : f ∈ t.form.code) (ho : operand t.form ts = []) :
    Slice whole f.offset f.text ∧
      Forward whole (f.offset + f.text.length) (.code depth ts :: rest) ∧
      Advances whole (.code depth (t :: ts) :: rest) none q f.offset := by
  cases h with
  | code h hrest =>
    cases h with
    | cons ht hs =>
      obtain ⟨hlt, hle, hslice⟩ := ht.code f hf
      have hafter := ht.after
      refine ⟨hslice, .code (hs.from_le hle) hrest, by omega, ?_, nofun⟩
      rw [taken, ho]
      exact List.forall_mem_singleton.2 hlt

theorem Forward.loopless {kind : ConditionKind} {predicate command : Fragment} {o : Nat}
    (h : Forward whole q (.code depth (⟨.conditional kind predicate command, o⟩ :: ts) :: rest)) :
    kind ≠ .whilst ∧ kind ≠ .each := by
  cases h with
  | code h _ =>
    cases h with
    | cons ht _ => exact ht.loopless kind predicate command rfl

/-- A step goes on from left to right. -/
theorem Steps.advances (h : Steps limit tasks s m) (hw : whole.Loopless)
    (hf : Forward whole q tasks) :
    m.Leads (fun n => ∃ q', Advances whole tasks m.effect? q q' ∧ Forward whole q' n.tasks)
      fun _ => True := by
  cases h with
  | halted | done | printUnbound | pushUnbound => trivial
  | codeOver =>
    cases hf with
    | code h hrest =>
      cases h with
      | nil hle => exact ⟨q, ⟨le_rfl, nofun, nofun⟩, hrest.from_le hle⟩
  | act depth ts rest h =>
    exact hf.advances limit hw (leaves_of_operand_eq_nil h.operand_eq_nil) nofun
  | ask depth ts rest h =>
    refine fun _ => hf.advances limit hw (leaves_of_operand_eq_nil h.operand_eq_nil) fun e he => ?_
    cases he
    exact h.causes
  | snapshot depth ts rest h =>
    exact hf.advances limit hw (leaves_of_operand_eq_nil h.operand_eq_nil) fun _ => h.causes
  | print depth o rest h =>
    refine hf.advances limit hw h.leaves fun e he => ?_
    cases he
    exact h.causes
  | printNothing depth o rest h => exact hf.advances limit hw h.leaves nofun
  | @block x body s m depth o ts rest hm h =>
    obtain ⟨hslice, hrest, hadvances⟩ := hf.before_rest (f := body) List.mem_cons_self rfl
    have hbody := h.forward hw hslice (.store hrest)
    rw [h.effect?_eq]
    exact hbody.mono (fun _ hn => ⟨_, hadvances, hn⟩) fun _ _ => trivial
  | @once predicate command s m depth o ts rest h =>
    obtain ⟨hslice, hrest, hadvances⟩ := hf.before_rest (f := command) List.mem_cons_self rfl
    have hcommand := h.forward hw hslice hrest
    rw [h.effect?_eq]
    exact hcommand.mono (fun _ hn => ⟨_, hadvances, hn⟩) fun _ _ => trivial
  | whilst => exact absurd rfl hf.loopless.1
  | each => exact absurd rfl hf.loopless.2
  | store =>
    cases hf with
    | store h => exact ⟨q, ⟨le_rfl, nofun, nofun⟩, h⟩
  | loop | timesOver | times => cases hf

end Machine

private theorem Text.countP_take_lt {p : Char → Bool} {k : Nat} (ha : a ≤ k) (hb : k < b)
    (hk : t[k]? = some c) (hc : p c = true) : (t.take a).countP p < (t.take b).countP p := by
  have hsucc : t.take (k + 1) = t.take k ++ [c] := by rw [List.take_add_one, hk]; rfl
  have hle : (t.take a).countP p ≤ (t.take k).countP p :=
    (List.take_sublist_take_left ha).countP_le
  have hlt : (t.take (k + 1)).countP p ≤ (t.take b).countP p :=
    (List.take_sublist_take_left hb).countP_le
  rw [hsucc, List.countP_append, List.countP_singleton, if_pos hc] at hlt
  omega

namespace Session

variable {σ : Type} [Host σ] {x y z : Session σ}

/-- A run that has come to `q`, with no more effects than there are marks before. -/
structure At (whole : Text) (q : Nat) (x : Session σ) : Prop where
  forward : Forward whole q x.machine.tasks
  counted : ∀ e, x.effects.count e ≤ (whole.take q).countP (· ∈ e.marks)

theorem At.next (h : x.At whole q) (hw : whole.Loopless) (hn : Next limit x y) :
    ∃ q', q ≤ q' ∧ y.At whole q' ∧ ∀ o ∈ taken x.machine.tasks, o < q' := by
  obtain ⟨q', hadvances, hforward⟩ :=
    hn.leads ((Machine.steps_step limit x.machine).advances hw h.forward)
  refine ⟨q', hadvances.le, ⟨hforward, fun e => ?_⟩, hadvances.taken⟩
  rw [hn.effects_eq, List.count_append]
  have hle : (whole.take q).countP (· ∈ e.marks) ≤ (whole.take q').countP (· ∈ e.marks) :=
    (List.take_sublist_take_left hadvances.le).countP_le
  have hcounted := h.counted e
  by_cases he : (x.machine.step limit).effect? = some e
  · obtain ⟨p, c, hp, hpq, hc, hmark⟩ := hadvances.mark e he
    have hlt : (whole.take q).countP (· ∈ e.marks) < (whole.take q').countP (· ∈ e.marks) :=
      countP_take_lt hp hpq hc (decide_eq_true hmark)
    simp only [he, Option.toList_some, List.count_singleton_self]
    omega
  · have hnone : (x.machine.step limit).effect?.toList.count e = 0 := by
      rw [List.count_eq_zero, Option.mem_toList]
      exact he
    omega

theorem At.reaches (h : x.At whole q) (hw : whole.Loopless) (hr : x.Reaches limit z) :
    ∃ q', q ≤ q' ∧ z.At whole q' := by
  induction hr with
  | refl => exact ⟨q, le_rfl, h⟩
  | tail _ hn ih =>
    obtain ⟨q₁, hle, h⟩ := ih
    obtain ⟨q₂, hle', h, -⟩ := h.next hw hn
    exact ⟨q₂, hle.trans hle', h⟩

theorem At.taken_lt (h : x.At whole q) (hw : whole.Loopless)
    (hr : Relation.TransGen (Next limit) x z) :
    ∀ o ∈ taken x.machine.tasks, ∀ o' ∈ taken z.machine.tasks, o < o' := by
  intro o ho o' ho'
  obtain ⟨y, hn, hr⟩ := Relation.TransGen.head'_iff.1 hr
  obtain ⟨q₁, -, hy, hlt⟩ := h.next hw hn
  obtain ⟨q₂, hle, hz⟩ := hy.reaches hw hr
  exact (hlt o ho).trans_le (hle.trans (hz.forward.le_taken o' ho'))

omit [Host σ] in
theorem at_start {source : Text} (host : σ) (hw : (Fragment.ofSource source).text.Loopless)
    (hts : programTokens limit source = .ok ts) :
    (start ts host).At (Fragment.ofSource source).text 0 := by
  obtain ⟨us, hus, rfl⟩ := programTokens_eq_ok_iff.1 hts
  have hlaid := PushMarker.laid_fuse (Fragment.laid_of_tokens hus hw List.prefix_rfl)
  exact ⟨.code hlaid (.done _), fun e => Nat.zero_le _⟩

end Session

/-- The calls have no effect for which the text has no mark, and where the text has no loops, each
effect at most as often as there are marks of it. -/
structure Text.Bounds (t : Text) (calls : List Call) : Prop where
  marked : ∀ e ∈ calls.filterMap Call.effect?, ∃ c ∈ e.marks, c ∈ t
  counted : ¬whilstMark <:+: t → ¬eachMark <:+: t →
    ∀ e, (calls.filterMap Call.effect?).count e ≤ t.countP (· ∈ e.marks)

theorem Session.Reaches.bounds {σ : Type} [Host σ] {source : Text} {host : σ} {z : Session σ}
    (hts : programTokens limit source = .ok ts) (hz : (Session.start ts host).Reaches limit z) :
    (Fragment.ofSource source).text.Bounds z.calls where
  marked := hz.marked hts
  counted hwhilst heach e := by
    have hw : (Fragment.ofSource source).text.Loopless := ⟨hwhilst, heach⟩
    obtain ⟨q, -, hq⟩ := (at_start host hw hts).reaches hw hz
    exact (hq.counted e).trans (List.take_sublist _ _).countP_le

/-- However far a run has come, its effects on the host are bounded by the marks in its text, and
where the text has no loops, what the run takes up always stands behind what it has taken up before.
To these calls the report of the run adds no more than the one with which it ends. -/
theorem effects_bounded_by_text {σ : Type} [Host σ] (settings : Settings) (source : Text)
    (host : σ) :
    let text := (Fragment.ofSource source).text
    (∀ ts x, programTokens settings.limit source = .ok ts →
      (Session.start ts host).Reaches settings.limit x →
      text.Bounds x.calls ∧
      (¬whilstMark <:+: text → ¬eachMark <:+: text →
        ∀ y, Relation.TransGen (Session.Next settings.limit) x y →
          ∀ o ∈ taken x.machine.tasks, ∀ o' ∈ taken y.machine.tasks, o < o')) ∧
    ∀ steps report, runProgram settings source host steps = some report →
      (∃ e, programTokens settings.limit source = .error e ∧
        report.calls = [.notice (.fault e.message e.offset)]) ∨
      ∃ ts z, programTokens settings.limit source = .ok ts ∧
        (Session.start ts host).Ends settings.limit z report.fault ∧
        report.calls = z.calls.reverse ++ (z.closing? settings report.fault).toList ∧
        text.Bounds z.calls := by
  intro text
  refine ⟨fun ts x hts hx => ⟨hx.bounds hts, fun hwhilst heach y hy => ?_⟩,
    fun steps report hr => ?_⟩
  · have hw : text.Loopless := ⟨hwhilst, heach⟩
    obtain ⟨q, -, hq⟩ := (Session.at_start host hw hts).reaches hw hx
    exact hq.taken_lt hw hy
  · rcases exists_runProgram_iff.1 ⟨steps, hr⟩ with ⟨e, he, rfl⟩ | ⟨ts, z, fault, hts, hz, rfl⟩
    · exact .inl ⟨e, he, Session.report_calls settings _ _⟩
    · exact .inr ⟨ts, z, hts, hz, Session.report_calls settings z fault, hz.1.bounds hts⟩

theorem effects_bounded_in_straight_program :
    let source : Text := ['▲', '&', '#']
    let host : Recorder := { queue := [] }
    ∃ ts y report, ∃ z : Session Recorder,
      programTokens 64 source = .ok ts ∧ Session.Next 64 (Session.start ts host) y ∧
      taken (Session.start ts host).machine.tasks = [0] ∧ taken y.machine.tasks = [2] ∧ 0 < 2 ∧
      y.calls = [.input .declined] ∧ (y.calls.filterMap Call.effect?).count .request ≤ 1 ∧
      runProgram {} source host 5 = some report ∧
      report.calls = z.calls.reverse ++ (z.closing? {} report.fault).toList ∧
      (z.calls.filterMap Call.effect?).count .print ≤ 1 := by
  intro source host
  obtain ⟨ts, hts⟩ : ∃ ts, programTokens 64 source = .ok ts := ⟨_, rfl⟩
  have hfirst : taken (Session.start ts host).machine.tasks = [0] := by cases hts; rfl
  obtain ⟨y, hn, hcalls, hsecond⟩ : ∃ y, Session.Next 64 (Session.start ts host) y ∧
      y.calls = [.input .declined] ∧ taken y.machine.tasks = [2] := by
    cases hts
    exact ⟨_, rfl, rfl, rfl⟩
  obtain ⟨report, hr⟩ : ∃ report, runProgram {} source host 5 = some report := ⟨_, rfl⟩
  have heffects := effects_bounded_by_text {} source host
  have hwhilst : ¬whilstMark <:+: (Fragment.ofSource source).text := by decide
  have heach : ¬eachMark <:+: (Fragment.ofSource source).text := by decide
  have hforward := (heffects.1 ts _ hts .refl).2 hwhilst heach y (.single hn) 0
    (hfirst ▸ List.mem_cons_self) 2 (hsecond ▸ List.mem_cons_self)
  have hbounds := (heffects.1 ts y hts (.single hn)).1
  rcases heffects.2 5 report hr with ⟨e, he, -⟩ | ⟨ts', z, -, -, hreport, hz⟩
  · cases hts.symm.trans he
  · exact ⟨ts, y, report, z, hts, hn, hfirst, hsecond, hforward, hcalls,
      hbounds.counted hwhilst heach .request, hr, hreport, hz.counted hwhilst heach .print⟩

end BlueNexus
