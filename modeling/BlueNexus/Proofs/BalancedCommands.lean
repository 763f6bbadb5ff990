import BlueNexus.Proofs.BalancedText
import BlueNexus.Proofs.NestingDepth
import BlueNexus.Proofs.ScanStretches

/-!
# The commands of conditionals

Behind its kind and its predicate, which end at the first bracket and the first brace, a conditional
is read if its command is balanced and not too deep, and only then
(`conditional_read_iff_balanced`).
-/

namespace BlueNexus

open Nesting

/-- A conditional as it is written, up to the parenthesis in front of its command. -/
def Form.heading (kind predicate : Text) : Text :=
  '?' :: '[' :: (kind ++ ']' :: '{' :: (predicate ++ ['}', '(']))

/-- The conditional that stands at `offset`, with its parts where they stand. -/
def Form.conditionalAt (breaks : List Nat) (offset : Nat) (kind predicate command : Text) : Form :=
  .conditional (.ofText kind) ⟨predicate, offset + 4 + kind.length, []⟩
    (.code breaks (offset + 6 + kind.length + predicate.length) command)

namespace Form

variable {limit offset n o l : Nat} {breaks : List Nat} {c : Char}
  {r kind predicate command t : Text}

@[simp] theorem heading_append (kind predicate t : Text) :
    heading kind predicate ++ t =
      '?' :: '[' :: (kind ++ ']' :: '{' :: (predicate ++ '}' :: '(' :: t)) := by
  simp [heading]

@[simp] theorem length_heading (kind predicate : Text) :
    (heading kind predicate).length = kind.length + predicate.length + 6 := by
  simp only [heading, List.length_cons, List.length_append, List.length_nil]
  omega

theorem Reads.conditional_text (hl : 1 ≤ limit) {k : ConditionKind} {p q : Fragment}
    (h : Reads limit breaks offset c r (.ok ⟨some (.conditional k p q), n⟩)) :
    ∃ kind predicate command : Text, ']' ∉ kind ∧ '}' ∉ predicate ∧
      Balanced (limit - 1) command ∧
      .conditional k p q = conditionalAt breaks offset kind predicate command ∧
      (c :: r).take (1 + n) = heading kind predicate ++ (command ++ [')']) := by
  cases h with
  | @conditional kind predicate t n hk hp h =>
    have hclose : t.take (n + 1) = t.take n ++ [')'] := by
      rw [List.take_add_one, getElem?_of_extent_closed h]
      rfl
    have hsize : 1 + (kind.length + predicate.length + n + 6) =
        (heading kind predicate).length + (n + 1) := by
      rw [length_heading]
      omega
    refine ⟨kind, predicate, t.take n, hk, hp, balanced_of_extent_closed h hl, rfl, ?_⟩
    rw [← heading_append, hsize, List.take_length_add_append, hclose]

/-- Behind its heading the extent of its command decides what comes of reading a conditional. -/
theorem readAt?_heading (hk : ']' ∉ kind) (hp : '}' ∉ predicate) (t : Text) :
    Fragment.readAt? limit ⟨heading kind predicate ++ t, offset, breaks⟩ 0 =
      some (match extent parentheses limit 0 t with
        | .unclosed => .error (.malformed offset)
        | .tooDeep n =>
          .error (.nestingTooDeep (offset + 6 + kind.length + predicate.length + n) limit)
        | .closed n =>
          .ok ⟨some (conditionalAt breaks offset kind predicate (t.take n)),
            kind.length + predicate.length + n + 6⟩) := by
  rw [heading_append]
  cases h : extent parentheses limit 0 t with
  | unclosed => exact congrArg some (read_eq_of_reads (.openConditional hk hp h))
  | tooDeep n => exact congrArg some (read_eq_of_reads (.deepConditional hk hp h))
  | closed n => exact congrArg some (read_eq_of_reads (.conditional hk hp h))

/-- A conditional with a balanced command comes before the tokens of what is behind it. -/
theorem tokens_conditional (hl : 1 ≤ limit) (hk : ']' ∉ kind) (hp : '}' ∉ predicate)
    (hbalanced : Balanced (limit - 1) command) (r : Text) :
    Fragment.tokens limit ⟨heading kind predicate ++ (command ++ ')' :: r), offset, breaks⟩ =
      (Fragment.tokens limit
        ⟨r, offset + (kind.length + predicate.length + command.length + 7), breaks⟩).map
        (⟨conditionalAt breaks offset kind predicate command, offset⟩ :: ·) := by
  obtain ⟨depth, rfl⟩ : ∃ depth, limit = depth + 1 := ⟨limit - 1, by omega⟩
  have hextent : extent parentheses (depth + 1) 0 (command ++ ')' :: r) = .closed command.length :=
    extent_of_balanced hbalanced r
  have hread : Fragment.readAt? (depth + 1)
      ⟨heading kind predicate ++ (command ++ ')' :: r), offset, breaks⟩ 0 =
        some (.ok ⟨some (conditionalAt breaks offset kind predicate command),
          kind.length + predicate.length + command.length + 6⟩) := by
    simp only [readAt?_heading hk hp, hextent, List.take_left]
  have hsize : 0 + 1 + (kind.length + predicate.length + command.length + 6) =
      kind.length + predicate.length + command.length + 7 := by omega
  have hdrop : kind.length + predicate.length + command.length + 7 =
      (heading kind predicate).length + (command.length + 1) := by
    rw [length_heading]
    omega
  have htext : (heading kind predicate ++ (command ++ ')' :: r)).drop
      (kind.length + predicate.length + command.length + 7) = r := by
    rw [hdrop, List.drop_length_add_append, List.drop_length_add_append]
    rfl
  have htokens := Fragment.tokens_behind_of_ok hread
  rw [hsize] at htokens
  simp only [Fragment.behind, htext] at htokens
  exact htokens

theorem readAt?_eq_tooDeep_iff (hk : ']' ∉ kind) (hp : '}' ∉ predicate) :
    Fragment.readAt? limit ⟨heading kind predicate ++ t, offset, breaks⟩ 0 =
        some (.error (.nestingTooDeep o l)) ↔
      l = limit ∧ ∃ n, o = offset + 6 + kind.length + predicate.length + n ∧
        extent parentheses limit 0 t = .tooDeep n := by
  rw [readAt?_heading hk hp]
  cases extent parentheses limit 0 t with
  | tooDeep n => simp [eq_comm, and_comm]
  | _ => simp

theorem readAt?_eq_malformed_iff (hk : ']' ∉ kind) (hp : '}' ∉ predicate) :
    Fragment.readAt? limit ⟨heading kind predicate ++ t, offset, breaks⟩ 0 =
        some (.error (.malformed o)) ↔
      o = offset ∧ extent parentheses limit 0 t = .unclosed := by
  rw [readAt?_heading hk hp]
  cases extent parentheses limit 0 t with
  | unclosed => simp [eq_comm]
  | _ => simp

end Form

open Form Fragment

/-- A conditional whose command is balanced is one token, with its three parts where they stand, and
the tokens behind it are those of the rest. Wherever a conditional is read in a fragment, this is
how it is written there. What begins like a conditional is nested too deep at the first parenthesis
inside the command that takes the depth above the limit, and is malformed if there is none and the
command has no end. -/
theorem conditional_read_iff_balanced (limit : Nat) (breaks : List Nat) (offset : Nat)
    (hl : 1 ≤ limit) :
    (∀ kind predicate command r : Text, ']' ∉ kind → '}' ∉ predicate →
      Balanced (limit - 1) command →
      Fragment.tokens limit ⟨heading kind predicate ++ (command ++ ')' :: r), offset, breaks⟩ =
        (Fragment.tokens limit
          ⟨r, offset + (kind.length + predicate.length + command.length + 7), breaks⟩).map
          (⟨conditionalAt breaks offset kind predicate command, offset⟩ :: ·)) ∧
    (∀ (f : Fragment) (ts : List Token), f.tokens limit = .ok ts →
      ∃ ss, f.Passes limit 0 ss f.text.length ∧ ss.filterMap (·.token? f) = ts ∧
        ∀ s ∈ ss, ∀ k p q, s.form = some (.conditional k p q) →
          ∃ kind predicate command : Text, ']' ∉ kind ∧ '}' ∉ predicate ∧
            Balanced (limit - 1) command ∧
            .conditional k p q =
              conditionalAt f.breaks (f.offset + s.start) kind predicate command ∧
            s.text f = heading kind predicate ++ (command ++ [')'])) ∧
    ∀ kind predicate t : Text, ']' ∉ kind → '}' ∉ predicate →
      (∀ o l, Fragment.readAt? limit ⟨heading kind predicate ++ t, offset, breaks⟩ 0 =
          some (.error (.nestingTooDeep o l)) ↔
        l = limit ∧ ∃ n, o = offset + 6 + kind.length + predicate.length + n ∧
          TooDeepAt parentheses limit 0 t n ∧ ∀ m < n, ¬TooDeepAt parentheses limit 0 t m) ∧
      (∀ o, Fragment.readAt? limit ⟨heading kind predicate ++ t, offset, breaks⟩ 0 =
          some (.error (.malformed o)) ↔
        o = offset ∧ (∀ n, ¬ClosesAt parentheses 0 t n) ∧
          ∀ n, ¬TooDeepAt parentheses limit 0 t n) ∧
      ∀ e, Fragment.readAt? limit ⟨heading kind predicate ++ t, offset, breaks⟩ 0 =
          some (.error e) →
        Fragment.tokens limit ⟨heading kind predicate ++ t, offset, breaks⟩ = .error e := by
  refine ⟨fun kind predicate command r hk hp hbalanced => ?_, fun f ts hts => ?_,
    fun kind predicate t hk hp => ⟨fun o l => ?_, fun o => ?_, fun e he => ?_⟩⟩
  · exact tokens_conditional hl hk hp hbalanced r
  · obtain ⟨ss, hpasses, htokens⟩ := exists_passes_of_tokens hts
    refine ⟨ss, hpasses, htokens, fun s hs k p q hform => ?_⟩
    obtain ⟨c, r, n, hreads, htext⟩ := hpasses.reads_of_mem hs
    rw [hform] at hreads
    rw [htext]
    exact hreads.conditional_text hl
  · simp only [readAt?_eq_tooDeep_iff hk hp, extent_eq_iff apart_parentheses]
    rfl
  · rw [readAt?_eq_malformed_iff hk hp, extent_eq_iff apart_parentheses]
    rfl
  · exact tokens_behind_of_error he

/-- A conditional with the marks of its parts inside other parts, and what remains of it if its
command goes on or has no end. -/
theorem conditional_read_iff_balanced_among_marks :
    let kind : Text := ['!', '{', '(']
    let predicate : Text := ['1', '=', ']', '(']
    let command : Text := ['(', '}', ')']
    let f : Fragment := ⟨heading kind predicate ++ (command ++ [')', '7']), 1, []⟩
    let ts : List Token := [⟨.conditional (.other kind) ⟨predicate, 8, []⟩ ⟨command, 14, []⟩, 1⟩,
      ⟨.number 7, 18⟩]
    ']' ∉ kind ∧ '}' ∉ predicate ∧ Balanced 1 command ∧ f.tokens 2 = .ok ts ∧
    (∃ ss, f.Passes 2 0 ss f.text.length ∧ ss.filterMap (·.token? f) = ts ∧
      ∀ s ∈ ss, ∀ k p q, s.form = some (.conditional k p q) →
        ∃ kind predicate command : Text, ']' ∉ kind ∧ '}' ∉ predicate ∧ Balanced 1 command ∧
          .conditional k p q = conditionalAt [] (1 + s.start) kind predicate command ∧
          s.text f = heading kind predicate ++ (command ++ [')'])) ∧
    Fragment.tokens 2 ⟨heading kind predicate ++ ['(', '(', ')'], 1, []⟩ =
      .error (.nestingTooDeep 15 2) ∧
    Fragment.tokens 2 ⟨heading kind predicate ++ ['(', ')'], 1, []⟩ = .error (.malformed 1) := by
  intro kind predicate command f ts
  obtain ⟨hread, hwritten, hflaws⟩ := conditional_read_iff_balanced 2 [] 1 (by decide)
  have hk : ']' ∉ kind := by decide
  have hp : '}' ∉ predicate := by decide
  have hbalanced : Balanced 1 command := by decide
  have hts : f.tokens 2 = .ok ts := (hread kind predicate command ['7'] hk hp hbalanced).trans rfl
  obtain ⟨hdeep, -, hfault⟩ := hflaws kind predicate ['(', '(', ')'] hk hp
  obtain ⟨-, hopen, hfault'⟩ := hflaws kind predicate ['(', ')'] hk hp
  have hsecond : extent parentheses 2 0 ['(', '(', ')'] = .tooDeep 1 := rfl
  have hnone : extent parentheses 2 0 ['(', ')'] = .unclosed := rfl
  exact ⟨hk, hp, hbalanced, hts, hwritten f ts hts,
    hfault _ ((hdeep 15 2).2 ⟨rfl, 1, rfl, (extent_eq_iff apart_parentheses).1 hsecond⟩),
    hfault' _ ((hopen 1).2 ⟨rfl, (extent_eq_iff apart_parentheses).1 hnone⟩)⟩

end BlueNexus
