import BlueNexus.Host.Recorder
import BlueNexus.Proofs.MachineRules
import BlueNexus.Proofs.PushMarkers
import BlueNexus.Proofs.SessionRuns
import BlueNexus.Proofs.SignedNumerals
import BlueNexus.Proofs.TokenScan
import Mathlib.Data.List.Chain

/-!
# The places of faults

Whatever fault ends a run, its offset is that of a character of the source without its separators,
and this character shows what the fault is about (`fault_shown_in_source`). Tokens and tasks know
their places by fragments that are slices of the source, however deep they are nested.
-/

namespace BlueNexus

open Text

/-- What a text shows at the place of a fault. -/
def Fault.ShownIn (whole : Text) : Fault → Prop
  | .malformed o => ∃ c ∈ ['?', '"', '↡', '▼'], whole[o]? = some c
  | .nestingTooDeep o _ => o < whole.length
  | .badLiteral o => (∃ c, whole[o]? = some c ∧ c.isDigit = true) ∧
      Int64.maxValue.toInt < Numeral.digitsValue ((whole.drop o).takeWhile Char.isDigit)
  | .unknownCommand o c => whole[o]? = some c
  | .undefinedVariable o x =>
    (∃ p, o = p + 1 ∧ (whole[p]? = some '#' ∨ whole[p]? = some '$') ∧
      whole[o]? = some x.letter) ∨
    (whole[o]? = some '▲' ∧ whole[o + 1]? = some x.letter)

/-- What a text shows at the place of a token. A command is shown with its closing parenthesis. -/
def Token.ShownIn (whole : Text) (t : Token) : Prop :=
  match t.form with
  | .variable x => whole[t.offset]? = some x.letter
  | .glyph g => whole[t.offset]? = some g.toChar
  | .pushVariable x => whole[t.offset]? = some '▲' ∧ whole[t.offset + 1]? = some x.letter
  | .block _ body => Slice whole body.offset body.text
  | .conditional _ predicate command =>
    Slice whole predicate.offset predicate.text ∧ Slice whole command.offset (command.text ++ [')'])
  | _ => True

/-- A variable that follows a glyph stands right behind it. -/
def Token.Adjoins (t u : Token) : Prop :=
  ∀ g x, t.form = .glyph g → u.form = .variable x → u.offset = t.offset + 1

structure Token.ListShownIn (whole : Text) (ts : List Token) : Prop where
  shown : ∀ t ∈ ts, t.ShownIn whole
  adjoins : ts.IsChain Token.Adjoins

theorem Token.ListShownIn.of_suffix {whole : Text} {ts us : List Token}
    (h : Token.ListShownIn whole ts) (hs : us <:+ ts) : Token.ListShownIn whole us :=
  ⟨fun t ht => h.shown t (hs.mem ht), h.adjoins.suffix hs⟩

theorem Token.ListShownIn.tail {whole : Text} {t : Token} {ts : List Token}
    (h : Token.ListShownIn whole (t :: ts)) : Token.ListShownIn whole ts :=
  h.of_suffix (List.suffix_cons t ts)

def Task.ShownIn (whole : Text) : Task → Prop
  | .code _ ts => Token.ListShownIn whole ts
  | .store _ => True
  | .loop _ predicate command =>
    Slice whole predicate.offset predicate.text ∧ Slice whole command.offset (command.text ++ [')'])
  | .times _ _ command => Slice whole command.offset (command.text ++ [')'])

variable {whole : Text} {limit offset : Nat} {breaks : List Nat} {c : Char} {r : Text}

private theorem Fault.ShownIn.offset_lt {e : Fault} (h : e.ShownIn whole) :
    e.offset < whole.length := by
  have lt : ∀ {o : Nat} {c : Char}, whole[o]? = some c → o < whole.length :=
    fun h => (List.getElem?_eq_some_iff.1 h).1
  cases e with
  | malformed o =>
    obtain ⟨c, _, h⟩ := h
    exact lt h
  | nestingTooDeep o l => exact h
  | badLiteral o =>
    obtain ⟨⟨c, h, _⟩, _⟩ := h
    exact lt h
  | unknownCommand o c => exact lt h
  | undefinedVariable o x =>
    rcases h with ⟨p, _, _, h⟩ | ⟨h, _⟩
    · exact lt h
    · exact lt h

theorem Nesting.lt_length_of_extent_tooDeep {p : Pairing} {inner n : Nat} {t : Text}
    (h : extent p limit inner t = .tooDeep n) : n < t.length := by
  induction t generalizing inner n with
  | nil => cases h
  | cons c r ih =>
    have later : ∀ {i : Nat}, (extent p limit i r).later = .tooDeep n → n < (c :: r).length := by
      intro i h
      cases he : extent p limit i r with
      | closed m => rw [he] at h; cases h
      | unclosed => rw [he] at h; cases h
      | tooDeep m =>
        rw [he] at h
        cases h
        exact Nat.succ_lt_succ (ih he)
    unfold extent at h
    split at h
    · split at h
      · cases h
        exact Nat.succ_pos _
      · exact later h
    · split at h
      · split at h
        · cases h
        · exact later h
      · exact later h

namespace Form

private theorem isDigit_of_mem_take_digitRun {o : Nat} {t : Text} {d : Char}
    (h : d ∈ t.take (digitRun breaks o t)) : d.isDigit = true := by
  induction t generalizing o with
  | nil => simp at h
  | cons a t ih =>
    rw [digitRun] at h
    split at h
    · next ha =>
      rcases List.mem_cons.1 h with rfl | h
      · exact (Bool.and_eq_true _ _ ▸ ha).1
      · exact ih h
    · cases h

theorem Reads.fault_shown {e : Fault} (h : Reads limit breaks offset c r (.error e))
    (hs : Slice whole offset (c :: r)) : e.ShownIn whole := by
  have hc := hs.getElem?
  cases h with
  | badLiteral hd hv =>
    refine ⟨⟨c, hc, hd⟩, ?_⟩
    have hlt := Numeral.max_lt_of_signed?_eq_none (List.cons_ne_nil _ _) hv
    have hpre : c :: r.take (digitRun breaks (offset + 1) r) <+: whole.drop offset :=
      hs.mono <| (List.prefix_cons_inj c).2 (List.take_prefix _ _)
    have hall : ∀ d ∈ c :: r.take (digitRun breaks (offset + 1) r), d.isDigit = true :=
      List.forall_mem_cons.2 ⟨hd, fun d hm => isDigit_of_mem_take_digitRun hm⟩
    obtain ⟨s, hs⟩ := hpre
    rw [← hs, List.takeWhile_append_of_pos hall]
    have hmono := Numeral.digitsValue_mono <| List.prefix_append
      (c :: r.take (digitRun breaks (offset + 1) r)) (s.takeWhile Char.isDigit)
    omega
  | openString h => exact ⟨'"', by simp, hc⟩
  | @deepBlock x r n h =>
    exact (hs.drop 3).add_lt_length (Nesting.lt_length_of_extent_tooDeep h)
  | openDrop hd h => exact ⟨c, by rcases hd with rfl | rfl <;> simp, hc⟩
  | headless h => exact ⟨'?', by simp, hc⟩
  | openConditional hk hp h => exact ⟨'?', by simp, hc⟩
  | @deepConditional kind predicate rest n hk hp h =>
    have hrest := hs.tail.trans (slice_command kind predicate rest)
    have hlt := hrest.add_lt_length (Nesting.lt_length_of_extent_tooDeep h)
    change offset + 6 + kind.length + predicate.length + n < whole.length
    omega
  | unknown => exact hc

theorem Reads.shown {form : Form} {n : Nat}
    (h : Reads limit breaks offset c r (.ok ⟨some form, n⟩))
    (hs : Slice whole offset (c :: r)) : (⟨form, offset⟩ : Token).ShownIn whole := by
  have hc := hs.getElem?
  cases h with
  | dot => exact hc
  | glyph _ _ _ h =>
    rw [← Glyph.toChar_of_ofChar? h] at hc
    exact hc
  | mention x => exact hc
  | block x h => exact (hs.drop 3).take _
  | openBlock x h => exact hs.drop 3
  | @conditional kind predicate rest n hk hp h =>
    have hpredicate := hs.tail.trans (slice_predicate kind predicate rest)
    have hcommand := hs.tail.trans (slice_command kind predicate rest)
    rw [show offset + 1 + (kind.length + 3) = offset + 4 + kind.length by omega] at hpredicate
    rw [show offset + 1 + (kind.length + predicate.length + 5) =
      offset + 6 + kind.length + predicate.length by omega] at hcommand
    refine ⟨hpredicate, hcommand.mono ?_⟩
    have hclose := List.getElem?_eq_some_iff.1 (Nesting.getElem?_of_extent_closed h)
    obtain ⟨hn, hget⟩ := hclose
    rw [show (')' : Char) = rest[n] from hget.symm, Fragment.code,
      ← List.take_succ_eq_append_getElem hn]
    exact List.take_prefix _ _
  | _ => trivial

end Form

namespace Fragment

variable {t : Text} {ts : List Token}

/-- Where no name stands no variable is read first, for a dot and a dollar sign are only passed over
before what is no name either. -/
theorem Scan.head_ne_variable (h : Scan limit breaks offset t ts) (ht : Name.leading? t = none)
    (x : Name) (o : Nat) (us : List Token) : ts ≠ ⟨.variable x, o⟩ :: us := by
  induction h with
  | done => exact List.cons_ne_nil _ _ |>.symm
  | form h _ _ =>
    intro he
    cases he
    cases h with
    | mention => simp [Name.leading?] at ht
  | nameless h _ ih =>
    cases h with
    | nameless h => exact ih h

theorem Scan.offset_of_variable {x : Name} {o : Nat} {us : List Token}
    (h : Scan limit breaks offset t (⟨.variable x, o⟩ :: us)) : o = offset := by
  cases h with
  | form => rfl
  | nameless h hs =>
    cases h with
    | nameless h => exact absurd rfl (hs.head_ne_variable h x o us)

theorem Scan.listShown (h : Scan limit breaks offset t ts) (hs : Slice whole offset t) :
    Token.ListShownIn whole ts := by
  induction h with
  | done => exact ⟨by simp, .nil⟩
  | nameless h hscan ih => exact ih (hs.tail.drop _)
  | @form offset c r f n ts h hscan ih =>
    obtain ⟨hshown, hadjoins⟩ := ih (hs.tail.drop n)
    refine ⟨List.forall_mem_cons.2 ⟨h.shown hs, hshown⟩, hadjoins.cons fun u hu => ?_⟩
    intro g x hg hx
    obtain ⟨us, rfl⟩ := List.head?_eq_some_iff.1 hu
    obtain ⟨uf, o⟩ := u
    cases hg
    cases hx
    have ho := hscan.offset_of_variable
    cases h with
    | dot => exact ho
    | glyph => exact ho

theorem listShown_of_tokens {f : Fragment} (h : f.tokens limit = .ok ts)
    (hs : Slice whole f.offset f.text) : Token.ListShownIn whole ts :=
  (scan_of_tokens h).listShown hs

theorem fault_shown_of_tokens {f : Fragment} {e : Fault} (h : f.tokens limit = .error e)
    (hs : Slice whole f.offset f.text) : e.ShownIn whole := by
  obtain ⟨k, c, r, hk, hflaw⟩ := exists_flaw h
  exact hflaw.fault_shown (hs.trans hk)

end Fragment

namespace PushMarker

private theorem listShown_fuse {ts : List Token} (h : Token.ListShownIn whole ts) :
    Token.ListShownIn whole (fuse ts) := by
  have behind : ∀ {t : Token} {ts : List Token}, Token.ListShownIn whole (t :: ts) →
      Token.ListShownIn whole (fuse ts) → Token.ListShownIn whole (t :: fuse ts) := by
    intro t ts h ih
    refine ⟨List.forall_mem_cons.2 ⟨h.shown t List.mem_cons_self, ih.shown⟩,
      ih.adjoins.cons fun u hu g x hg hx => ?_⟩
    obtain ⟨us, hus⟩ := List.head?_eq_some_iff.1 hu
    obtain ⟨uf, o⟩ := u
    cases hx
    obtain ⟨vs, rfl, -⟩ := eq_of_fuse_variable hus
    exact (List.isChain_cons_cons.1 h.adjoins).1 g x hg rfl
  fun_induction fuse ts with
  | case1 => exact h
  | case2 => exact h
  | case3 t u r ht f hf ih =>
    have hr := ih h.tail.tail
    refine ⟨List.forall_mem_cons.2 ⟨?_, hr.shown⟩, hr.adjoins.cons fun v _ g x hg _ => ?_⟩
    · have hmark := h.shown t List.mem_cons_self
      have hnext := h.shown u (by simp)
      have hoffset := (List.isChain_cons_cons.1 h.adjoins).1
      obtain ⟨uf, o⟩ := u
      obtain ⟨tf, p⟩ := t
      cases ht
      rcases fused?_cases hf with ⟨_, rfl⟩ | ⟨n, _, rfl⟩ | ⟨x, hx, rfl⟩
      · trivial
      · trivial
      · cases hx
        have ho : o = p + 1 := hoffset _ x rfl rfl
        subst ho
        exact ⟨hmark, hnext⟩
    · rcases fused?_cases hf with ⟨_, rfl⟩ | ⟨n, _, rfl⟩ | ⟨x, _, rfl⟩ <;> cases hg
  | case4 t u r ht hf ih => exact behind h (ih h.tail)
  | case5 t u r ht ih => exact behind h (ih h.tail)

end PushMarker

namespace Machine

variable {tasks rest past : List Task} {s : State} {m : Move} {depth : Nat}

/-- All tasks of a machine are shown by the text. -/
def ShownIn (whole : Text) (m : Machine) : Prop := ∀ t ∈ m.tasks, t.ShownIn whole

theorem Enters.shown {f : Fragment} (h : Enters limit depth f rest s m)
    (hs : Slice whole f.offset f.text) (ho : f.offset < whole.length)
    (hrest : ∀ t ∈ rest, t.ShownIn whole) : m.Leads (ShownIn whole) (Fault.ShownIn whole) := by
  cases h with
  | unreadable h => exact Fragment.fault_shown_of_tokens h hs
  | tooDeep h hd => exact ho
  | entered h hd => exact List.forall_mem_cons.2 ⟨Fragment.listShown_of_tokens h hs, hrest⟩

theorem Enters.shown_of_close {f : Fragment} {close : Char} (h : Enters limit depth f rest s m)
    (hs : Slice whole f.offset (f.text ++ [close])) (hrest : ∀ t ∈ rest, t.ShownIn whole) :
    m.Leads (ShownIn whole) (Fault.ShownIn whole) :=
  h.shown hs.append_left (hs.add_lt_length (k := 0) (by simp)) hrest

theorem EntersIf.shown {predicate command : Fragment}
    (h : EntersIf limit depth predicate command rest past s m)
    (hp : Slice whole predicate.offset predicate.text)
    (hc : Slice whole command.offset (command.text ++ [')']))
    (hrest : ∀ t ∈ rest, t.ShownIn whole) (hpast : ∀ t ∈ past, t.ShownIn whole) :
    m.Leads (ShownIn whole) (Fault.ShownIn whole) := by
  cases h with
  | unreadable h => exact Fragment.fault_shown_of_tokens h hp
  | passed => exact hpast
  | holding _ he => exact he.shown_of_close hc hrest

theorem Steps.shown (h : Steps limit tasks s m) (ht : ∀ t ∈ tasks, t.ShownIn whole) :
    m.Leads (ShownIn whole) (Fault.ShownIn whole) := by
  have code : ∀ {depth : Nat} {ts : List Token} {rest : List Task},
      (∀ t ∈ Task.code depth ts :: rest, t.ShownIn whole) →
        Token.ListShownIn whole ts ∧ ∀ t ∈ rest, t.ShownIn whole :=
    fun h => List.forall_mem_cons.1 h
  cases h with
  | halted => trivial
  | done => trivial
  | codeOver => exact (code ht).2
  | act depth ts rest =>
    obtain ⟨hcode, hrest⟩ := code ht
    exact List.forall_mem_cons.2 ⟨hcode.tail, hrest⟩
  | ask depth ts rest =>
    obtain ⟨hcode, hrest⟩ := code ht
    exact fun n => List.forall_mem_cons.2 ⟨hcode.tail, hrest⟩
  | snapshot depth ts rest =>
    obtain ⟨hcode, hrest⟩ := code ht
    exact List.forall_mem_cons.2 ⟨hcode.tail, hrest⟩
  | print depth o rest h | printNothing depth o rest h =>
    obtain ⟨hcode, hrest⟩ := code ht
    exact List.forall_mem_cons.2 ⟨hcode.tail.of_suffix h.suffix, hrest⟩
  | @printUnbound g x s depth o o' ts rest hg h =>
    obtain ⟨hcode, hrest⟩ := code ht
    have hmark : whole[o]? = some g.toChar := hcode.shown ⟨.glyph g, o⟩ List.mem_cons_self
    have hname : whole[o']? = some x.letter := hcode.shown ⟨.variable x, o'⟩ (by simp)
    have ho : o' = o + 1 := (List.isChain_cons_cons.1 hcode.adjoins).1 g x rfl rfl
    refine .inl ⟨o, ho, ?_, hname⟩
    rcases hg with rfl | rfl
    · exact .inl hmark
    · exact .inr hmark
  | @pushUnbound x s depth o ts rest h =>
    obtain ⟨hcode, hrest⟩ := code ht
    exact .inr (hcode.shown ⟨.pushVariable x, o⟩ List.mem_cons_self)
  | @block x body s m depth o ts rest hm h =>
    obtain ⟨hcode, hrest⟩ := code ht
    have hbody : Slice whole body.offset body.text :=
      hcode.shown ⟨.block x body, o⟩ List.mem_cons_self
    have hne : body.text ≠ [] := fun he => by
      have hnil : body.tokens limit = .ok [] := by rw [Fragment.tokens, he]; rfl
      cases hm _ hnil
    refine h.shown hbody (hbody.add_lt_length (List.length_pos_iff.2 hne)) ?_
    exact List.forall_mem_cons.2 ⟨trivial, List.forall_mem_cons.2 ⟨hcode.tail, hrest⟩⟩
  | @once predicate command s m depth o ts rest h =>
    obtain ⟨hcode, hrest⟩ := code ht
    have hshown := hcode.shown ⟨.conditional .once predicate command, o⟩ List.mem_cons_self
    have hnext : ∀ t ∈ Task.code depth ts :: rest, t.ShownIn whole :=
      List.forall_mem_cons.2 ⟨hcode.tail, hrest⟩
    exact h.shown hshown.1 hshown.2 hnext hnext
  | whilst predicate command s depth o ts rest =>
    obtain ⟨hcode, hrest⟩ := code ht
    have hshown := hcode.shown ⟨.conditional .whilst predicate command, o⟩ List.mem_cons_self
    exact List.forall_mem_cons.2 ⟨hshown, List.forall_mem_cons.2 ⟨hcode.tail, hrest⟩⟩
  | each predicate command s depth o ts rest =>
    obtain ⟨hcode, hrest⟩ := code ht
    have hshown := hcode.shown ⟨.conditional .each predicate command, o⟩ List.mem_cons_self
    exact List.forall_mem_cons.2 ⟨hshown.2, List.forall_mem_cons.2 ⟨hcode.tail, hrest⟩⟩
  | store => exact fun t h => ht t (List.mem_cons_of_mem _ h)
  | @loop predicate command s m depth rest h =>
    obtain ⟨hloop, hrest⟩ := List.forall_mem_cons.1 ht
    exact h.shown hloop.1 hloop.2 ht hrest
  | timesOver => exact fun t h => ht t (List.mem_cons_of_mem _ h)
  | @times command s m depth n rest h =>
    obtain ⟨hc, hrest⟩ := List.forall_mem_cons.1 ht
    exact h.shown_of_close hc (List.forall_mem_cons.2 ⟨hc, hrest⟩)

end Machine

/-- The fault that ends a run, at whatever depth it is found, lies within the source and is shown
there by it. -/
theorem fault_shown_in_source {σ : Type} [Host σ] (settings : Settings) (source : Text) (host : σ)
    (steps : Nat) (report : Report σ) (e : Fault)
    (hr : runProgram settings source host steps = some report) (he : report.fault = some e) :
    e.offset < (Fragment.ofSource source).text.length ∧
      e.ShownIn (Fragment.ofSource source).text := by
  have hwhole : Slice (Fragment.ofSource source).text (Fragment.ofSource source).offset
      (Fragment.ofSource source).text := List.prefix_rfl
  have hshown : e.ShownIn (Fragment.ofSource source).text := by
    rcases exists_runProgram_iff.1 ⟨steps, hr⟩ with ⟨e', ht, rfl⟩ | ⟨ts, z, f, ht, hz, rfl⟩
    · cases he
      exact Fragment.fault_shown_of_tokens (programTokens_eq_error_iff.1 ht) hwhole
    · have hf : f = some e := he
      obtain ⟨us, hus, rfl⟩ := programTokens_eq_ok_iff.1 ht
      rw [hf] at hz
      refine hz.failure (P := Machine.ShownIn _) (fun m hm => (Machine.steps_step _ m).shown hm) ?_
      exact List.forall_mem_singleton.2 <|
        PushMarker.listShown_fuse (Fragment.listShown_of_tokens hus hwhole)
  exact ⟨hshown.offset_lt, hshown⟩

theorem fault_shown_in_nested_block :
    ∃ report e, runProgram {} ['1', ' ', '?', '[', '!', '?', ']', '{', '1', '=', '1', '}', '(', '>',
        'a', '<', '#', 'x', '<', ')'] ({ queue := [] } : Recorder) 9 = some report ∧
      report.fault = some e ∧ e = .undefinedVariable 16 ⟨'x', rfl⟩ ∧ e.offset < 19 ∧
      e.ShownIn ['1', '?', '[', '!', '?', ']', '{', '1', '=', '1', '}', '(', '>', 'a', '<', '#',
        'x', '<', ')'] := by
  obtain ⟨report, hr, he⟩ : ∃ report, runProgram {} ['1', ' ', '?', '[', '!', '?', ']', '{', '1',
      '=', '1', '}', '(', '>', 'a', '<', '#', 'x', '<', ')'] ({ queue := [] } : Recorder) 9 =
        some report ∧ report.fault = some (.undefinedVariable 16 ⟨'x', rfl⟩) := ⟨_, rfl, rfl⟩
  exact ⟨report, _, hr, he, rfl, fault_shown_in_source _ _ _ _ report _ hr he⟩

end BlueNexus
