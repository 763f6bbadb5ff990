import BlueNexus.Proofs.Predicates
import BlueNexus.Proofs.SignedNumerals
import BlueNexus.Proofs.StringPrograms
import Mathlib.Algebra.Order.Floor.Div
import Mathlib.Tactic.Ring

/-!
# Loops that count

A loop that ends well has a number of rounds (`executes_loop_iff`), and the context in which it
starts tells how many (`Work.Rounds.unique`). A loop that increases a variable by a step as long as
it is below a bound has as many rounds as there are steps up to the bound. What it prints are the
numbers on the way, and none of them wraps as long as the last step from below the bound does not
(`counting_loop_counts`).
-/

namespace BlueNexus

open Nesting Numeral Token

variable {x : Name} {a n k limit offset : Nat} {t r : Text}

theorem Nesting.extent_of_plain (ho : '(' ∉ t) (hc : ')' ∉ t) :
    extent parentheses limit 0 (t ++ ')' :: r) = .closed t.length := by
  induction t with
  | nil => rfl
  | cons c t ih =>
    obtain ⟨ho, hot⟩ := List.ne_and_not_mem_of_not_mem_cons ho
    obtain ⟨hc, hct⟩ := List.ne_and_not_mem_of_not_mem_cons hc
    rw [List.cons_append, extent_other ho.symm hc.symm, ih hot hct]
    rfl

namespace Text

/-- Says that `x` is below `n`. -/
def below (x : Name) (n : Nat) : Text := [x.letter] ++ ['<'] ++ Nat.toDigits 10 n

/-- Increases `x` by `k` and prints it. -/
def increase (x : Name) (k : Nat) : Text :=
  '>' :: x.letter :: (('+' :: Nat.toDigits 10 k) ++ ['<', '#', x.letter])

/-- Increases and prints `x` as long as it is below `n`. -/
def counting (x : Name) (n k : Nat) : Text :=
  '?' :: '[' :: (['!', '∞'] ++ ']' :: '{' :: (below x n ++ '}' :: '(' :: (increase x k ++ [')'])))

/-- Counts from `a` up to `n` in steps of `k`. -/
def countingProgram (x : Name) (a n k : Nat) : Text :=
  '>' :: x.letter :: '<' :: (Nat.toDigits 10 a ++ '<' :: counting x n k)

@[simp] theorem not_mem_toDigits {c : Char} (hc : c.isDigit = false) (n : Nat) :
    c ∉ Nat.toDigits 10 n := by
  intro h
  cases hc.symm.trans ((isDigits_toDigits n).all c h)

private theorem openless_of_not_mem (h : '>' ∉ t) : t.Openless := by
  induction t with
  | nil => exact .nil
  | cons c t ih =>
    obtain ⟨hc, ht⟩ := List.ne_and_not_mem_of_not_mem_cons h
    exact openless_cons.2 ⟨fun d _ hgreater => absurd hgreater.symm hc, ih ht⟩

theorem enclosable_toDigits (a : Nat) : Enclosable (Nat.toDigits 10 a) where
  kept c hc := Fragment.isSeparator_of_isDigit ((isDigits_toDigits a).all c hc)
  closeless := not_mem_toDigits rfl a
  openless := openless_of_not_mem (not_mem_toDigits rfl a)

private theorem not_mem_below {c : Char} (hdigit : c.isDigit = false) (hletter : c.isAlpha = false)
    (hless : c ≠ '<') : c ∉ below x n := by
  have hx : c ≠ x.letter := (x.letter_ne hletter).symm
  simp [below, hx, hless, not_mem_toDigits hdigit]

theorem not_mem_increase {c : Char} (hdigit : c.isDigit = false) (hletter : c.isAlpha = false)
    (hmark : c ∉ ['>', '+', '<', '#']) : c ∉ increase x k := by
  have hx : c ≠ x.letter := (x.letter_ne hletter).symm
  simp at hmark
  simp [increase, hx, hmark, not_mem_toDigits hdigit]

private theorem countingProgram_kept :
    ∀ c ∈ countingProgram x a n k, Fragment.isSeparator c = false := by
  have hdigits : ∀ m, ∀ c ∈ Nat.toDigits 10 m, Fragment.isSeparator c = false :=
    fun m => (enclosable_toDigits m).kept
  have hx := Fragment.isSeparator_of_isAlpha x.isLetter
  simp only [countingProgram, counting, below, increase, List.forall_mem_cons,
    List.forall_mem_append, List.cons_append, List.nil_append]
  and_intros
  all_goals first | rfl | exact hx | exact hdigits _ | exact List.forall_mem_nil _

end Text

namespace Fragment

open Text

def increaseTokens (x : Name) (k offset : Nat) : List Token :=
  let behind := offset + (Nat.toDigits 10 k).length + 4
  [⟨.expression x ('+' :: Nat.toDigits 10 k), offset⟩, ⟨.glyph .printNumber, behind⟩,
    ⟨.variable x, behind + 1⟩]

/-- The predicate and the command of a counting loop at `offset`. -/
def belowAt (x : Name) (n offset : Nat) : Fragment := ⟨below x n, offset + 6, []⟩

def increaseAt (x : Name) (n k offset : Nat) : Fragment :=
  ⟨increase x k, offset + 8 + (below x n).length, []⟩

/-- The block in front of a counting loop. -/
def startToken (x : Name) (a : Nat) : Token := ⟨.block x ⟨Nat.toDigits 10 a, 3, []⟩, 0⟩

def countingToken (x : Name) (n k offset : Nat) : Token :=
  ⟨.conditional .whilst (belowAt x n offset) (increaseAt x n k offset), offset⟩

def countingTokens (x : Name) (a n k : Nat) : List Token :=
  [startToken x a, countingToken x n k ((Nat.toDigits 10 a).length + 4)]

private theorem readExpression_closed (h : '<' ∉ t) :
    Form.readExpression x (t ++ '<' :: r) = ⟨some (.expression x t), t.length + 2⟩ := by
  have hkept : ∀ c ∈ t, decide (c ≠ '<') = true := by
    intro c hc
    simpa using ne_of_mem_of_not_mem hc h
  have htake : (t ++ '<' :: r).takeWhile (· ≠ '<') = t := by
    rw [List.takeWhile_append_of_pos hkept, List.takeWhile_cons_of_neg (by decide), List.append_nil]
  have hlength : t.length < (t ++ '<' :: r).length := by simp
  simp only [Form.readExpression, htake, if_pos hlength, Form.Reading.mk.injEq, true_and]
  omega

private theorem tokens_increase (x : Name) (k limit offset : Nat) :
    tokens limit ⟨increase x k, offset, []⟩ = .ok (increaseTokens x k offset) := by
  have hopen : '<' ∉ '+' :: Nat.toDigits 10 k :=
    List.not_mem_cons_of_ne_of_not_mem (by decide) (not_mem_toDigits rfl k)
  have hreads : Form.Reads limit [] offset '>'
      (x.letter :: (('+' :: Nat.toDigits 10 k) ++ ['<', '#', x.letter]))
      (.ok ⟨some (.expression x ('+' :: Nat.toDigits 10 k)), (Nat.toDigits 10 k).length + 3⟩) :=
    readExpression_closed hopen ▸ .expression x (by simp)
  have hdrop : (x.letter :: (('+' :: Nat.toDigits 10 k) ++ ['<', '#', x.letter])).drop
      ((Nat.toDigits 10 k).length + 3) = ['#', x.letter] := by
    simp
  have hoffset : offset + 1 + ((Nat.toDigits 10 k).length + 3) =
      offset + (Nat.toDigits 10 k).length + 4 := by
    omega
  rw [increase, tokens_of_reads hreads, hdrop, hoffset]
  exact congrArg (Except.map _) (tokens_print (.inl rfl) x [] limit _)

private theorem tokens_counting (x : Name) (n k limit offset : Nat) :
    tokens limit ⟨counting x n k, offset, []⟩ = .ok [countingToken x n k offset] := by
  have hextent : extent parentheses limit 0 (increase x k ++ [')']) =
      .closed (increase x k).length := by
    apply extent_of_plain
    · exact not_mem_increase rfl rfl (by decide)
    · exact not_mem_increase rfl rfl (by decide)
  have hpredicate : '}' ∉ below x n := not_mem_below rfl rfl (by decide)
  have hkind : ']' ∉ ['!', '∞'] := by decide
  have hreads : Form.Reads limit [] offset '?' _ _ := .conditional hkind hpredicate hextent
  rw [List.take_left] at hreads
  rw [counting, tokens_of_reads hreads, List.drop_eq_nil_of_le (by simp; omega)]
  rfl

private theorem tokens_countingProgram (x : Name) (a n k limit : Nat) :
    tokens limit ⟨countingProgram x a n k, 0, []⟩ = .ok (countingTokens x a n k) := by
  have hextent := (enclosable_toDigits a).extent_eq limit (counting x n k)
  have hdrop : (x.letter :: '<' :: (Nat.toDigits 10 a ++ '<' :: counting x n k)).drop
      ((Nat.toDigits 10 a).length + 3) = counting x n k := by
    simp
  have hoffset : 0 + 1 + ((Nat.toDigits 10 a).length + 3) = (Nat.toDigits 10 a).length + 4 := by
    omega
  rw [countingProgram, tokens_of_reads (.block x hextent), hdrop, hoffset, tokens_counting,
    List.take_left]
  rfl

end Fragment

open Fragment Text

private theorem programTokens_countingProgram (limit : Nat) (x : Name) (a n k : Nat) :
    programTokens limit (countingProgram x a n k) = .ok (countingTokens x a n k) := by
  have htokens := tokens_countingProgram x a n k limit
  rw [← ofSource_of_kept countingProgram_kept] at htokens
  refine programTokens_eq_ok_iff.2 ⟨_, htokens, PushMarker.fuse_eq_self ?_⟩
  simp [countingTokens, startToken, countingToken]

variable {σ : Type} [Host σ] {predicate command : Fragment} {c c' c'' : Context σ} {m m' : Nat}
  {limit : Nat}

/-- So many times in a row the predicate holds and the command ends well, and then the predicate
fails. -/
inductive Work.Rounds (limit : Nat) (predicate command : Fragment) :
    Nat → Context σ → Context σ → Prop
  | ended {c : Context σ} (h : Condition.holds limit c.state predicate = .ok false) :
      Rounds limit predicate command 0 c c
  | again {m : Nat} {c c₁ c' : Context σ} (h : Condition.holds limit c.state predicate = .ok true)
      (hw : Executes limit (.fragment command) c c₁ none)
      (hs : Rounds limit predicate command m c₁ c') : Rounds limit predicate command (m + 1) c c'

theorem executes_loop_iff : Executes limit (.loop predicate command) c c' none ↔
    ∃ m, Work.Rounds limit predicate command m c c' := by
  constructor
  · intro h
    generalize hw : Work.loop predicate command = w at h
    generalize hr : (none : Option Fault) = r at h
    induction h with
    | loopOver h =>
      cases hw
      exact ⟨0, .ended h⟩
    | again h hbody hs ihbody ihs =>
      cases hw
      obtain ⟨m, hm⟩ := ihs rfl hr
      exact ⟨m + 1, .again h (hr ▸ hbody) hm⟩
    | loopGuardFault | againFault => cases hr
    | _ => cases hw
  · rintro ⟨m, h⟩
    induction h with
    | ended h => exact .loopOver h
    | again h hw hs ih => exact .again h hw ih

theorem Executes.unique_fragment (h : Executes limit (.fragment command) c c' none)
    (h' : Executes limit (.fragment command) c c'' none) : c' = c'' := by
  cases h with
  | entered ht hd hs =>
    cases h' with
    | entered ht' hd' hs' =>
      cases ht.symm.trans ht'
      rw [(hs.unique hs').1]

theorem Work.Rounds.unique (h : Work.Rounds limit predicate command m c c')
    (h' : Work.Rounds limit predicate command m' c c'') : m = m' ∧ c' = c'' := by
  induction h generalizing m' with
  | ended h =>
    cases h' with
    | ended => exact ⟨rfl, rfl⟩
    | again h' => cases h.symm.trans h'
  | again h hw hs ih =>
    cases h' with
    | ended h' => cases h.symm.trans h'
    | again h' hw' hs' =>
      cases hw.unique_fragment hw'
      obtain ⟨rfl, rfl⟩ := ih hs'
      exact ⟨rfl, rfl⟩

@[simp] theorem toInt_ofNat (h : n < 2 ^ 63) : (Int64.ofNat n).toInt = n :=
  Int64.toInt_ofNat_of_lt h

/-- The operand that is written as a decimal. -/
def Operand.ofNat (n : Nat) (h : n < 2 ^ 63) : Operand :=
  .numeral (Nat.toDigits 10 n) (isDigits_toDigits n).ne_nil (isDigits_toDigits n).all <| by
    rw [digitsValue_toDigits, Int64.toInt_maxValue]
    omega

theorem Operand.value_ofNat (s : State) (h : n < 2 ^ 63) :
    (Operand.ofNat n h).value s = .ofNat n := by
  rw [ofNat, value, digitsValue_toDigits, Int64.ofInt_eq_ofNat]

private theorem tokens_toDigits (limit offset : Nat) (h : n < 2 ^ 63) :
    tokens limit ⟨Nat.toDigits 10 n, offset, []⟩ = .ok [⟨.number (.ofNat n), offset⟩] := by
  have htokens := (Operand.ofNat n h).tokens_text limit offset
  rwa [Operand.ofNat, Operand.form, digitsValue_toDigits, Int64.ofInt_eq_ofNat] at htokens

private theorem holds_comparison (limit offset : Nat) (s : State) (l : Operand) (op : Comparison)
    (r : Operand) (h : op = .greater → ∀ x, r ≠ .letter x) :
    Condition.holds limit s ⟨l.text ++ (op.symbol ++ r.text), offset, []⟩ =
      .ok (op.holds (l.value s) (r.value s)) := by
  simp [Condition.holds, tokens_comparison limit offset h, Except.map, Condition.judge]

theorem holds_below {v : Nat} {s : State} (limit offset : Nat)
    (hx : s.variables.get? x = some (.scalar (.ofNat v))) (hv : v < 2 ^ 63) (hn : n < 2 ^ 63) :
    Condition.holds limit s (belowAt x n offset) = .ok (decide (v < n)) := by
  have hletter : (Operand.letter x).value s = .ofNat v := by simp [Operand.value, hx]
  have hholds := holds_comparison limit (offset + 6) s (.letter x) .less (.ofNat n hn) (by simp)
  rw [hletter, Operand.value_ofNat] at hholds
  have hless : Comparison.less.holds (.ofNat v) (.ofNat n) = decide (v < n) := by
    simp [Comparison.holds, Int64.lt_iff_toInt_lt, toInt_ofNat hv, toInt_ofNat hn]
  rw [← hless, ← hholds]
  rfl

@[simp] theorem decimal_ofNat (h : n < 2 ^ 63) : decimal (.ofNat n) = Nat.toDigits 10 n := by
  rw [decimal_of_nonneg (by rw [toInt_ofNat h]; omega), toInt_ofNat h, Int.toNat_natCast]

private theorem changed?_increase {v : Nat} (hk : k < 2 ^ 63) :
    Assignment.changed? (.ofNat v) ('+' :: Nat.toDigits 10 k) = some (.ofNat (v + k)) := by
  have hread := leading?_decimal (.ofNat k)
  rw [decimal_ofNat hk] at hread
  simp [Assignment.changed?, hread, Int64.ofNat_add]

private theorem change_increase {v : Nat} {vars : Bindings} (hk : k < 2 ^ 63)
    (hx : vars.get? x = some (.scalar (.ofNat v))) :
    (Assignment.change x ('+' :: Nat.toDigits 10 k) vars).get? x =
      some (.scalar (.ofNat (v + k))) := by
  simp [Assignment.change, hx, Value.mapScalar, changed?_increase hk]

/-- On the way to the second context the texts are printed, and there `x` has come to `v`. -/
structure Context.Counts (x : Name) (texts : List Text) (v : Nat) (c c' : Context σ) : Prop where
  depth : c'.depth = c.depth
  stack : c'.state.stack = c.state.stack
  printed : c'.state.printed = texts.reverse ++ c.state.printed
  calls : c'.calls = (texts.map fun t => .notice (.output t)).reverse ++ c.calls
  value : c'.state.variables.get? x = some (.scalar (.ofNat v))

omit [Host σ] in
theorem Context.Counts.trans {texts texts' : List Text} {v w : Nat} {c₁ : Context σ}
    (h : c.Counts x texts v c₁) (h' : c₁.Counts x texts' w c') :
    c.Counts x (texts ++ texts') w c' where
  depth := h'.depth.trans h.depth
  stack := h'.stack.trans h.stack
  printed := by simp [h'.printed, h.printed]
  calls := by simp [h'.calls, h.calls]
  value := h'.value

theorem executes_increase {v : Nat} (hc : c.Running) (hd : c.depth < limit)
    (hx : c.state.variables.get? x = some (.scalar (.ofNat v))) (hsum : v + k < 2 ^ 63) :
    ∃ c', Executes limit (.fragment (increaseAt x n k offset)) c c' none ∧
      c.Counts x [Nat.toDigits 10 (v + k)] (v + k) c' := by
  let s : State := { c.state with
    «variables» := Assignment.change x ('+' :: Nat.toDigits 10 k) c.state.variables }
  have hs : s.variables.get? x = some (.scalar (.ofNat (v + k))) := change_increase (by omega) hx
  have hprints := fun o => Glyph.Prints.whole o [] hs
  rw [Value.toText, decimal_ofNat hsum] at hprints
  refine ⟨_, .entered (tokens_increase x k limit _) hd <|
    .does hc (.act _ (.expression x _ c.state)) <|
    .does hc (.print _ (hprints _)) (.finished _), rfl, rfl, rfl, rfl, hs⟩

theorem ceilDiv_of_lt {v : Nat} (hk : 0 < k) (hv : v < n) :
    (n - v) ⌈/⌉ k = (n - (v + k)) ⌈/⌉ k + 1 := by
  apply eq_of_forall_ge_iff
  intro j
  cases j with
  | zero =>
    rw [ceilDiv_le_iff_le_mul hk]
    omega
  | succ j =>
    rw [Nat.add_le_add_iff_right, ceilDiv_le_iff_le_mul hk, ceilDiv_le_iff_le_mul hk, Nat.mul_succ]
    omega

/-- The decimals of the numbers from `v` on, without `v` itself, in steps of `k`. -/
def countedTexts (v k m : Nat) : List Text :=
  (List.range m).map fun j => Nat.toDigits 10 (v + (j + 1) * k)

private theorem countedTexts_eq_nil_iff {v : Nat} : countedTexts v k m = [] ↔ m = 0 := by
  simp [countedTexts]

private theorem countedTexts_succ (v k m : Nat) :
    countedTexts v k (m + 1) = Nat.toDigits 10 (v + k) :: countedTexts (v + k) k m := by
  have hfirst : v + (0 + 1) * k = v + k := by ring
  have hothers : ((fun j => Nat.toDigits 10 (v + (j + 1) * k)) ∘ Nat.succ) =
      fun j => Nat.toDigits 10 (v + k + (j + 1) * k) := by
    funext j
    have hnext : v + (j + 1 + 1) * k = v + k + (j + 1) * k := by ring
    exact congrArg (Nat.toDigits 10) hnext
  rw [countedTexts, List.range_succ_eq_map, List.map_cons, List.map_map, hfirst, hothers]
  rfl

theorem rounds_count {v : Nat} (hc : c.Running) (hd : c.depth < limit)
    (hx : c.state.variables.get? x = some (.scalar (.ofNat v))) (hv : v < 2 ^ 63) (hk : 0 < k)
    (hn : n + k ≤ 2 ^ 63) (hm : (n - v) ⌈/⌉ k = m) :
    ∃ c', Work.Rounds limit (belowAt x n offset) (increaseAt x n k offset) m c c' ∧
      c.Counts x (countedTexts v k m) (v + m * k) c' ∧ v + m * k < 2 ^ 63 := by
  have hbound : n < 2 ^ 63 := by omega
  induction m generalizing v c with
  | zero =>
    have hle : ¬v < n := by
      rw [← Nat.le_zero, ceilDiv_le_iff_le_mul hk] at hm
      omega
    have hholds := holds_below limit offset hx hv hbound
    rw [decide_eq_false hle] at hholds
    refine ⟨c, .ended hholds, ⟨rfl, rfl, rfl, rfl, ?_⟩, ?_⟩
    · simpa using hx
    · simpa using hv
  | succ m ih =>
    have hlt : v < n := by
      by_contra hle
      rw [Nat.sub_eq_zero_of_le (Nat.le_of_not_lt hle), zero_ceilDiv] at hm
      cases hm
    have hsum : v + k < 2 ^ 63 := by omega
    have hholds := holds_below limit offset hx hv hbound
    rw [decide_eq_true hlt] at hholds
    rw [ceilDiv_of_lt hk hlt] at hm
    obtain ⟨c₁, h₁, hfirst⟩ := executes_increase (n := n) hc hd hx hsum
    obtain ⟨c', h', hothers, hlast⟩ := ih (h₁.running hc) (hfirst.depth ▸ hd) hfirst.value hsum
      (Nat.succ.inj hm)
    have htotal : v + (m + 1) * k = v + k + m * k := by ring
    rw [countedTexts_succ, htotal]
    exact ⟨c', .again hholds h₁ h', hfirst.trans hothers, hlast⟩

private theorem executes_start (limit : Nat) (x : Name) (hc : c.Running) (ha : a < 2 ^ 63) :
    ∃ c', Executes limit (.code [startToken x a]) c c' none ∧ c.Counts x [] a c' := by
  refine ⟨_, .does hc (.act [] (.assign x c.state (tokens_toDigits limit 3 ha) rfl)) (.finished _),
    rfl, rfl, rfl, rfl, ?_⟩
  simp

/-- The block and the rounds of the loop after it are the whole program. -/
theorem executes_counting (offset : Nat) (hc : c.Running) (hd : c.depth < limit) (ha : a < 2 ^ 63)
    (hk : 0 < k) (hn : n + k ≤ 2 ^ 63) (hm : (n - a) ⌈/⌉ k = m) :
    ∃ c₁ c', Executes limit (.code [startToken x a]) c c₁ none ∧
      Work.Rounds limit (belowAt x n offset) (increaseAt x n k offset) m c₁ c' ∧
      Executes limit (.code [startToken x a, countingToken x n k offset]) c c' none ∧
      c.Counts x (countedTexts a k m) (a + m * k) c' ∧ a + m * k < 2 ^ 63 := by
  obtain ⟨c₁, hstart, hbegun⟩ := executes_start limit x hc ha
  have hc₁ := hstart.running hc
  obtain ⟨c', hrounds, hcounted, hlast⟩ :=
    rounds_count hc₁ (hbegun.depth ▸ hd) hbegun.value ha hk hn hm
  have hloop : Executes limit (.code [countingToken x n k offset]) c₁ c' none :=
    (executes_conditional_iff hc₁ (.whilst _ _ c₁.state)).2 (executes_loop_iff.2 ⟨m, hrounds⟩)
  have hparted : Parted [startToken x a] [countingToken x n k offset] := fun _ _ _ => rfl
  have hwhole := (executes_append_iff hc hparted).2 (.inr ⟨c₁, hstart, hloop⟩)
  exact ⟨c₁, c', hstart, hrounds, hwhole, hbegun.trans hcounted, hlast⟩

theorem Executes.exists_report {settings : Settings} {source : Text} {host : σ} {ts : List Token}
    (h : Executes settings.limit (.code ts) ⟨0, {}, host, []⟩ c' none)
    (ht : programTokens settings.limit source = .ok ts) :
    ∃ steps, runProgram settings source host steps =
      some ((c'.session []).report settings none) := by
  obtain ⟨-, tasks, hends⟩ := executes_iff_ends.1 h
  apply exists_runProgram_iff.2
  exact .inr ⟨ts, _, none, ht, hends, Session.report_tasks settings (c'.session tasks) [] none⟩

/-- What a run that ends well prints last. -/
def closingTexts (settings : Settings) (printed : List Text) : List Text :=
  if settings.completionNotice ∧ printed = [] then [completionNotice] else []

@[simp] theorem Context.report_state (settings : Settings) (c : Context σ) :
    ((c.session []).report settings none).state =
      { c.state with printed := closingTexts settings c.state.printed ++ c.state.printed } := by
  by_cases h : settings.completionNotice ∧ c.state.printed = []
  · simp [Session.report, Session.conclude, closingTexts, Context.session, h, Session.print,
      Session.call, State.print]
  · simp [Session.report, Session.conclude, closingTexts, Context.session, h]

private theorem Context.report_output (settings : Settings) (c : Context σ) :
    ((c.session []).report settings none).state.output =
      c.state.output ++ closingTexts settings c.state.printed := by
  rw [Context.report_state]
  by_cases h : settings.completionNotice ∧ c.state.printed = []
  · simp [State.output, closingTexts, h]
  · simp [State.output, closingTexts, h]

@[simp] theorem Context.report_calls (settings : Settings) (c : Context σ) :
    ((c.session []).report settings none).calls = c.calls.reverse ++
      (closingTexts settings c.state.printed).map fun t => .notice (.output t) := by
  rw [Session.report_calls]
  by_cases h : settings.completionNotice ∧ c.state.printed = []
  · simp [Session.closing?, closingTexts, Context.session, h]
  · simp [Session.closing?, closingTexts, Context.session, h]

/-- What has been printed on the way from the beginning is what the report shows. -/
theorem Context.Counts.report (settings : Settings) {host : σ} {texts : List Text} {v : Nat}
    (h : Counts x texts v ⟨0, {}, host, []⟩ c') :
    c'.state.output = texts ∧
      ((c'.session []).report settings none).state.output = texts ++
        (if settings.completionNotice ∧ texts = [] then [completionNotice] else []) ∧
      ((c'.session []).report settings none).calls =
        ((c'.session []).report settings none).state.output.map fun t => .notice (.output t) := by
  have hprinted : c'.state.output = texts := by simp [State.output, h.printed]
  have hcalls : c'.calls.reverse = texts.map fun t => .notice (.output t) := by simp [h.calls]
  have hclosing : closingTexts settings c'.state.printed =
      if settings.completionNotice ∧ texts = [] then [completionNotice] else [] := by
    simp [closingTexts, h.printed]
  rw [report_output, report_calls, hprinted, hcalls, hclosing, List.map_append]
  exact ⟨rfl, rfl, rfl⟩

/-- The loop has exactly as many rounds as there are steps up to the bound. It prints every number
it comes to, and stops at the first that is not below the bound. Without a round it prints nothing,
and the run says that it is complete, if the settings want it to. -/
theorem counting_loop_counts (settings : Settings) (host : σ) (x : Name) {a n k : Nat}
    (ha : a ≤ Int64.maxValue.toInt) (hk : 1 ≤ k)
    (hn : (n + k - 1 : Int) ≤ Int64.maxValue.toInt) :
    let m := (n - a) ⌈/⌉ k
    ∃ steps report, runProgram settings (countingProgram x a n k) host steps = some report ∧
      report.fault = none ∧
      report.state.output = countedTexts a k m ++
        (if settings.completionNotice ∧ m = 0 then [completionNotice] else []) ∧
      report.calls = report.state.output.map (fun t => .notice (.output t)) ∧
      report.state.stack.toList = [] ∧
      (∃ v : Int64, report.state.variables.get? x = some (.scalar v) ∧ v.toInt = a + m * k) ∧
      ∃ block predicate command offset, ∃ c c' : Context σ,
        programTokens settings.limit (countingProgram x a n k) =
          .ok [block, ⟨.conditional .whilst predicate command, offset⟩] ∧
        Executes settings.limit (.code [block]) ⟨0, {}, host, []⟩ c none ∧
        (∀ j c'', Work.Rounds settings.limit predicate command j c c'' ↔ j = m ∧ c'' = c') ∧
        c'.state.output = countedTexts a k m ∧
        report = (c'.session []).report settings none := by
  intro m
  have hm : (n - a) ⌈/⌉ k = m := rfl
  clear_value m
  rw [Int64.toInt_maxValue] at ha hn
  have hc : (⟨0, {}, host, []⟩ : Context σ).Running := rfl
  obtain ⟨c, c', hstart, hrounds, hwhole, hcounts, hlast⟩ := executes_counting (x := x)
    ((Nat.toDigits 10 a).length + 4) hc settings.limit_pos (by omega) hk (by omega) hm
  have htokens := programTokens_countingProgram settings.limit x a n k
  obtain ⟨steps, hrun⟩ := hwhole.exists_report htokens
  obtain ⟨hprinted, houtput, hcalls⟩ := hcounts.report settings
  simp only [countedTexts_eq_nil_iff] at houtput
  refine ⟨steps, _, hrun, rfl, houtput, hcalls, ?_, ⟨.ofNat (a + m * k), ?_, ?_⟩,
    _, _, _, _, c, c', htokens, hstart, ?_, hprinted, rfl⟩
  · rw [Context.report_state, hcounts.stack]
    rfl
  · rw [Context.report_state]
    exact hcounts.value
  · rw [toInt_ofNat hlast]
    push_cast
    rfl
  · intro j c''
    constructor
    · intro h
      obtain ⟨rfl, rfl⟩ := hrounds.unique h
      exact ⟨rfl, rfl⟩
    · rintro ⟨rfl, rfl⟩
      exact hrounds

/-- The last step still comes to an integer of 64 bits, and the next one would not. -/
theorem counting_loop_counts_near_maximum :
    let a := 9223372036854775800
    let n := 9223372036854775805
    let program := countingProgram ⟨'i', rfl⟩ a n 3
    (a ≤ Int64.maxValue.toInt ∧ (n + 3 - 1 : Int) ≤ Int64.maxValue.toInt) ∧
    program =
      ">i<9223372036854775800<?[!∞]\x7bi<9223372036854775805\x7d(>i+3<#i)".toList ∧
    ∃ steps report, runProgram {} program ({ queue := [] } : Recorder) steps = some report ∧
      report.fault = none ∧
      report.state.output = ["9223372036854775803".toList, "9223372036854775806".toList] ∧
      report.state.stack.toList = [] := by
  intro a n program
  have ha : ((9223372036854775800 : Nat) : Int) ≤ Int64.maxValue.toInt := by decide
  have hn : ((9223372036854775805 : Nat) + (3 : Nat) - 1 : Int) ≤ Int64.maxValue.toInt := by decide
  obtain ⟨steps, report, hrun, hfault, houtput, -, hstack, -⟩ :=
    counting_loop_counts {} ({ queue := [] } : Recorder) ⟨'i', rfl⟩ ha (by decide) hn
  exact ⟨⟨ha, hn⟩, by decide +kernel, steps, report, hrun, hfault,
    houtput.trans (by decide +kernel), hstack⟩

end BlueNexus
