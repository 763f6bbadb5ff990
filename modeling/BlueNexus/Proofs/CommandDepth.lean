import BlueNexus.Host.Recorder
import BlueNexus.Proofs.BalancedText
import BlueNexus.Proofs.NestingRoom

/-!
# The depth of commands

The parentheses of a command that can be read are balanced and leave room for as many levels as are
open in front of it. A command within it lies one parenthesis deeper, so where no block can be read,
a program whose tokens can be read is never cut off by its limit (`uncut_without_blocks`).
-/

namespace BlueNexus

namespace Nesting

/-- With `inner` parentheses open in front of it, the text has nowhere more than `depth` open. -/
def Within (depth inner : Nat) (t : Text) : Prop :=
  ∀ n ≤ t.length, (t.take n).count '(' + inner ≤ (t.take n).count ')' + depth

variable {depth limit inner n : Nat} {c : Char} {a b t : Text}

private theorem Within.tail_open
    (h : Within depth inner ('(' :: t)) : Within depth (inner + 1) t := by
  intro n hn
  have hn' : (t.take n).count '(' + 1 + inner ≤ (t.take n).count ')' + depth := by
    simpa using h (n + 1) (Nat.succ_le_succ hn)
  omega

private theorem Within.tail_close
    (h : Within depth (inner + 1) (')' :: t)) : Within depth inner t := by
  intro n hn
  have hn' : (t.take n).count '(' + (inner + 1) ≤ (t.take n).count ')' + 1 + depth := by
    simpa using h (n + 1) (Nat.succ_le_succ hn)
  omega

private theorem Within.tail_other (ho : c ≠ '(') (hc : c ≠ ')') (h : Within depth inner (c :: t)) :
    Within depth inner t := by
  intro n hn
  have hn' := h (n + 1) (Nat.succ_le_succ hn)
  simpa [ho, hc] using hn'

theorem Within.inner_le (h : Within depth inner t) : inner ≤ depth := by
  simpa using h 0 (Nat.zero_le _)

theorem Balanced.of_prefix (h : Balanced depth t) (ha : a <+: t) :
    a.count ')' ≤ a.count '(' ∧ a.count '(' ≤ a.count ')' + depth := by
  have hfront := h.1 a.length ha.length_le
  rwa [← List.prefix_iff_eq_take.1 ha] at hfront

/-- What stands behind an opening parenthesis of a balanced text lies within it. -/
theorem Balanced.within_behind (h : Balanced depth t) (ht : '(' :: b <:+: t) :
    Within depth 1 b := by
  obtain ⟨a, s, rfl⟩ := ht
  intro n _
  have hfront : a <+: a ++ '(' :: b ++ s := by simp
  have hinner : a ++ '(' :: b.take n <+: a ++ '(' :: b ++ s := by
    simpa using (List.take_prefix n b).trans (List.prefix_append b s)
  have hle := (h.of_prefix hfront).1
  have hle' : a.count '(' + ((b.take n).count '(' + 1) ≤
      a.count ')' + (b.take n).count ')' + depth := by
    simpa using (h.of_prefix hinner).2
  omega

/-- A text within another is not cut off where that one was not. -/
theorem Within.extent_ne_tooDeep (h : Within depth (inner + 1) t) (hd : depth ≤ limit) (n : Nat) :
    extent parentheses limit inner t ≠ .tooDeep n := by
  have later : ∀ {e : Extent}, (∀ n, e ≠ .tooDeep n) → ∀ n, e.later ≠ .tooDeep n := by
    intro e he n
    cases e <;> simp_all [Extent.later]
  induction t generalizing inner n with
  | nil => simp [extent]
  | cons c r ih =>
    by_cases ho : c = '('
    · subst ho
      have hopen := h.tail_open
      have hle := hopen.inner_le
      rw [extent_open (by omega)]
      exact later (ih hopen) n
    by_cases hc : c = ')'
    · subst hc
      cases inner with
      | zero => simp [extent, parentheses]
      | succ i =>
        rw [extent_close]
        exact later (ih h.tail_close) n
    · rw [extent_other ho hc]
      exact later (ih (h.tail_other ho hc)) n

theorem Within.balanced (hw : Within (depth + 1) 1 t)
    (h : extent parentheses limit 0 t = .closed n) (hl : 0 < limit) :
    Balanced depth (t.take n) := by
  obtain ⟨hfront, hwhole⟩ := balanced_of_extent_closed h hl
  refine ⟨fun k hk => ⟨(hfront k hk).1, ?_⟩, hwhole⟩
  have hle : k ≤ t.length := hk.trans (List.length_take_le' n t)
  have hk' := hw (min k n) ((Nat.min_le_left k n).trans hle)
  rw [List.take_take]
  omega

end Nesting

open Nesting

/-- No block can be read in the text. -/
def Text.Blockless (t : Text) : Prop := ∀ x : Name, ¬['>', x.letter, '<'] <:+: t

theorem Text.Blockless.mono {s t : Text} (h : t.Blockless) (hs : s <:+: t) : s.Blockless :=
  fun x hx => h x (hx.trans hs)

namespace Form

theorem open_suffix_of_heading (kind predicate rest : Text) :
    '(' :: rest <:+ '?' :: '[' :: (kind ++ ']' :: '{' :: (predicate ++ '}' :: '(' :: rest)) :=
  ⟨'?' :: '[' :: (kind ++ ']' :: '{' :: (predicate ++ ['}'])), by simp⟩

variable {limit offset n : Nat} {breaks : List Nat} {c : Char} {r : Text}

/-- The parts of a conditional: its predicate closes at the first brace, and its command at the
parenthesis that belongs to it. -/
theorem Reads.parts {kind : ConditionKind} {predicate command : Fragment}
    (h : Reads limit breaks offset c r (.ok ⟨some (.conditional kind predicate command), n⟩)) :
    '}' ∉ predicate.text ∧ ∃ b m, '(' :: b <:+ c :: r ∧
      extent parentheses limit 0 b = .closed m ∧ command.text = b.take m := by
  cases h with
  | conditional hk hp h => exact ⟨hp, _, _, open_suffix_of_heading _ _ _, h, rfl⟩

private theorem Reads.block_infix {x : Name} {body : Fragment}
    (h : Reads limit breaks offset c r (.ok ⟨some (.block x body), n⟩)) :
    ['>', x.letter, '<'] <:+: c :: r := by
  cases h with
  | block | openBlock => exact (List.prefix_append ['>', x.letter, '<'] _).isInfix

end Form

namespace Fragment

variable {limit depth : Nat} {f : Fragment} {ts : List Token}

theorem uncut_of_blockless (hb : f.text.Blockless)
    (hc : '}' ∈ f.text → ∀ b, '(' :: b <:+: f.text →
      ∀ n, extent parentheses limit 0 b ≠ .tooDeep n) : f.Uncut limit := by
  rintro e he o l rfl
  obtain ⟨k, c, r, hs, hflaw⟩ := exists_flaw he
  have hslice := hs.isInfix
  cases hflaw with
  | @deepBlock x r n h =>
    exact hb x ((List.prefix_append ['>', x.letter, '<'] r).isInfix.trans hslice)
  | @deepConditional kind predicate r n hk hp h =>
    have hopen := (Form.open_suffix_of_heading kind predicate r).isInfix.trans hslice
    exact hc (hslice.mem (by simp)) r hopen n h

/-- The fragment may be entered at the depth: it has no blocks, and the parentheses in it are no
more than the levels that are left. -/
def Roomy (limit depth : Nat) (f : Fragment) : Prop :=
  f.text.Blockless ∧ ∃ d, depth + d < limit ∧ Balanced d f.text

theorem Roomy.uncut (h : f.Roomy limit depth) : f.Uncut limit := by
  obtain ⟨hb, d, hd, hbalanced⟩ := h
  refine uncut_of_blockless hb fun _ b hopen => ?_
  exact (hbalanced.within_behind hopen).extent_ne_tooDeep (by omega)

theorem fits_of_commands (ht : f.tokens limit = .ok ts) (hb : f.text.Blockless)
    (hc : ∀ b n, '(' :: b <:+: f.text → extent parentheses limit 0 b = .closed n →
      ∃ d, depth + d < limit ∧ Balanced d (b.take n)) :
    ∀ t ∈ ts, t.Fits limit (fun depth g => g.Roomy limit depth) depth := by
  intro t htm
  have hscan := scan_of_tokens ht
  have slice : ∀ g ∈ t.form.fragments, g.text <:+: f.text := by
    intro g hg
    obtain ⟨k, -, hs, -⟩ := hscan.carried htm hg
    exact hs.isInfix
  obtain ⟨a, c, r, n, htext, -, hreads⟩ := hscan.of_mem htm
  have hsuffix : c :: r <:+ f.text := ⟨a, htext.symm⟩
  obtain ⟨form, o⟩ := t
  cases form with
  | block x body => exact absurd (hreads.block_infix.trans hsuffix.isInfix) (hb x)
  | conditional kind predicate command =>
    obtain ⟨hp, b, m, hopen, hclosed, htake⟩ := hreads.parts
    obtain ⟨d, hd, hbalanced⟩ := hc b m (hopen.trans hsuffix).isInfix hclosed
    have hcommand : command.Roomy limit depth := by
      refine ⟨hb.mono (slice command (by simp [Form.fragments])), d, hd, ?_⟩
      rwa [htake]
    have hpredicate : predicate.Uncut limit :=
      uncut_of_blockless (hb.mono (slice predicate (by simp [Form.fragments])))
        fun hm => absurd hm hp
    constructor
    · simp [Form.fragments, hpredicate, hcommand.uncut]
    · simp [Form.code, hcommand]
  | _ => exact ⟨by simp [Form.fragments], by simp [Form.code]⟩

end Fragment

/-- A command within a command has one parenthesis less, so it has room one level deeper. -/
theorem Nesting.room_of_parentheses (limit : Nat) :
    Room limit fun depth f => f.Roomy limit depth where
  lt_limit h := by
    obtain ⟨-, d, hd, -⟩ := h
    omega
  uncut h := h.uncut
  nested h ht := by
    obtain ⟨hb, d, hd, hbalanced⟩ := h
    refine Fragment.fits_of_commands ht hb fun b n hopen hclosed => ?_
    -- One of the levels is open in front of the command, and the level lost on entering it.
    have hwithin := hbalanced.within_behind hopen
    obtain ⟨d', rfl⟩ : ∃ d', d = d' + 1 := ⟨d - 1, by have := hwithin.inner_le; omega⟩
    exact ⟨d', by omega, hwithin.balanced hclosed (by omega)⟩

/-- A loop within a conditional, which takes two levels. -/
def loopWithin : Text := ['?', '[', '!', '?', ']', '{', '1', '=', '1', '}', '(', '?', '[', '!', '∞',
  ']', '{', '~', '=', '0', '}', '(', '1', ')', ')']

/-- A program that can be read, and in which no block can, is never cut off by its limit. -/
theorem uncut_without_blocks {σ : Type} [Host σ] (settings : Settings) (source : Text) (host : σ)
    (ts : List Token) (steps : Nat) (report : Report σ)
    (hb : ∀ x : Name, ¬['>', x.letter, '<'] <:+: (Fragment.ofSource source).text)
    (hts : (Fragment.ofSource source).tokens settings.limit = .ok ts)
    (hr : runProgram settings source host steps = some report) :
    ∀ o l, report.fault ≠ some (.nestingTooDeep o l) := by
  have hlimit := settings.limit_pos
  have hfits : ∀ us, (Fragment.ofSource source).tokens settings.limit = .ok us →
      ∀ t ∈ us, t.Fits settings.limit (fun depth g => g.Roomy settings.limit depth) 0 := by
    intro us hus
    refine Fragment.fits_of_commands hus hb fun b n _ hclosed => ?_
    exact ⟨settings.limit - 1, by omega, balanced_of_extent_closed hclosed hlimit⟩
  have hread : (Fragment.ofSource source).Uncut settings.limit := by
    intro e he
    cases hts.symm.trans he
  have huncut := report_uncut (Nesting.room_of_parentheses _) hread hfits hr
  exact fun o l hf => huncut _ hf o l rfl

theorem uncut_at_full_depth :
    ∃ ts report, (Fragment.ofSource loopWithin).tokens 2 = .ok ts ∧
      runProgram { maxNestingDepth := 2 } loopWithin ({ queue := [] } : Recorder) 9 = some report ∧
      ∀ o l, report.fault ≠ some (.nestingTooDeep o l) := by
  obtain ⟨ts, hts⟩ : ∃ ts, (Fragment.ofSource loopWithin).tokens 2 = .ok ts := ⟨_, rfl⟩
  obtain ⟨report, hr⟩ : ∃ report,
      runProgram { maxNestingDepth := 2 } loopWithin ({ queue := [] } : Recorder) 9 =
        some report := ⟨_, rfl⟩
  have hb : ∀ x : Name, ¬['>', x.letter, '<'] <:+: (Fragment.ofSource loopWithin).text := by
    intro x hx
    have hmem : '>' ∈ (Fragment.ofSource loopWithin).text := hx.mem List.mem_cons_self
    exact absurd hmem (by decide)
  exact ⟨ts, report, hts, hr,
    uncut_without_blocks { maxNestingDepth := 2 } loopWithin _ ts 9 report hb hts hr⟩

end BlueNexus
