import BlueNexus.Form.Nesting
import Mathlib.Logic.Function.Iterate

/-!
# Where a nested text ends, by counting

The depth in front of a character is the number of openings before it less the number of closes. A
nested text ends at the first close in front of which the depth is one, and is cut off at the first
opening before this close that takes the depth above the limit (`extent_eq_iff`).
-/

namespace BlueNexus.Nesting

/-- No character both opens and closes. -/
def Pairing.Apart (p : Pairing) : Prop := ∀ c r, p.opens c r = true → c ≠ p.close

/-- A nested text opens at the character `n`. -/
def Pairing.opensAt (p : Pairing) (t : Text) (n : Nat) : Bool :=
  match t.drop n with
  | [] => false
  | c :: r => p.opens c r

/-- The depth in front of the character `n` of a text, in front of which one opening stands and
`inner` others are open. -/
def depth (p : Pairing) (inner : Nat) (t : Text) (n : Nat) : Int :=
  inner + 1 + (List.range n).countP (p.opensAt t) - (t.take n).count p.close

/-- The close at `n` belongs to the first of the openings in front of the text. -/
structure ClosesAt (p : Pairing) (inner : Nat) (t : Text) (n : Nat) : Prop where
  close : t[n]? = some p.close
  depth_eq : depth p inner t n = 1
  first : ∀ m < n, t[m]? = some p.close → depth p inner t m ≠ 1

/-- The opening at `n` is one too many, and stands in front of the close of the text. -/
structure TooDeepAt (p : Pairing) (limit inner : Nat) (t : Text) (n : Nat) : Prop where
  opens : p.opensAt t n = true
  deep : limit < depth p inner t (n + 1)
  inside : ∀ m, ClosesAt p inner t m → n < m

/-- The extent is the one that counting gives. -/
def Extent.Counted (p : Pairing) (limit inner : Nat) (t : Text) : Extent → Prop
  | .closed n => ClosesAt p inner t n ∧ ∀ m, ¬TooDeepAt p limit inner t m
  | .unclosed => (∀ n, ¬ClosesAt p inner t n) ∧ ∀ m, ¬TooDeepAt p limit inner t m
  | .tooDeep n => TooDeepAt p limit inner t n ∧ ∀ m < n, ¬TooDeepAt p limit inner t m

/-- Counting goes on behind the character `c`, where `inner'` other openings are open. -/
structure CountsOn (p : Pairing) (limit inner : Nat) (c : Char) (r : Text) (inner' : Nat) :
    Prop where
  depth_succ : ∀ n, depth p inner (c :: r) (n + 1) = depth p inner' r n
  inner_ne : c = p.close → inner ≠ 0
  room : p.opens c r = true → inner' < limit

/-- The extent of a text that starts with `c`, by what this character does to the count. -/
inductive Counts (p : Pairing) (limit inner : Nat) (c : Char) (r : Text) : Extent → Prop
  | tooDeep (ho : p.opens c r = true) (hl : limit ≤ inner + 1) :
      Counts p limit inner c r (.tooDeep 0)
  | close (hc : c = p.close) (hi : inner = 0) : Counts p limit inner c r (.closed 0)
  | later {inner'} (h : CountsOn p limit inner c r inner') :
      Counts p limit inner c r (extent p limit inner' r).later

variable {p : Pairing} {limit inner inner' n : Nat} {c : Char} {r t : Text} {e e' : Extent}

theorem apart_parentheses : parentheses.Apart := by
  intro c r h hc
  have ho : c = '(' := by simpa [parentheses] using h
  cases ho.symm.trans hc

theorem apart_blocks : blocks.Apart := by
  intro c r h hc
  have ho : c = '>' := (by simpa [blocks] using h : c = '>' ∧ _).1
  cases ho.symm.trans hc

private theorem opensAt_nil (p : Pairing) (n : Nat) : p.opensAt [] n = false := by
  simp [Pairing.opensAt]

private theorem exists_of_opensAt (h : p.opensAt t n = true) :
    ∃ c r, t[n]? = some c ∧ p.opens c r = true := by
  unfold Pairing.opensAt at h
  split at h
  · cases h
  · next c r hr =>
    refine ⟨c, r, ?_, h⟩
    rw [← List.head?_drop, hr, List.head?_cons]

@[simp] theorem depth_zero (p : Pairing) (inner : Nat) (t : Text) :
    depth p inner t 0 = inner + 1 := by
  simp [depth]

theorem depth_cons (p : Pairing) (inner : Nat) (c : Char) (r : Text) (n : Nat) :
    depth p inner (c :: r) (n + 1) =
      depth p inner r n + (if p.opens c r then 1 else 0) - if c = p.close then 1 else 0 := by
  have hopened : (List.range (n + 1)).countP (p.opensAt (c :: r)) =
      (List.range n).countP (p.opensAt r) + if p.opens c r then 1 else 0 := by
    rw [List.range_succ_eq_map, List.countP_cons, List.countP_map]
    rfl
  simp only [depth, hopened, List.take_succ_cons, List.count_cons, beq_iff_eq]
  split <;> split <;> omega

@[simp] theorem depth_succ_inner (p : Pairing) (inner : Nat) (t : Text) (n : Nat) :
    depth p (inner + 1) t n = depth p inner t n + 1 := by
  simp only [depth]
  omega

private theorem depth_close (hp : p.Apart) (h : t[n]? = some p.close) :
    depth p inner t (n + 1) = depth p inner t n - 1 := by
  have hopens : ¬p.opensAt t n = true := by
    intro ho
    obtain ⟨c, r, hc, ho⟩ := exists_of_opensAt ho
    exact hp c r ho (Option.some.inj (hc.symm.trans h))
  have hopened : (List.range (n + 1)).countP (p.opensAt t) =
      (List.range n).countP (p.opensAt t) := by
    rw [List.range_succ, List.countP_append, List.countP_singleton, if_neg hopens, Nat.add_zero]
  have hclosed : (t.take (n + 1)).count p.close = (t.take n).count p.close + 1 := by
    rw [List.take_add_one, h, Option.toList_some, List.count_append, List.count_singleton_self]
  simp only [depth, hopened, hclosed]
  omega

theorem counts_extent (hp : p.Apart) (limit inner : Nat) (c : Char) (r : Text) :
    Counts p limit inner c r (extent p limit inner (c :: r)) := by
  unfold extent
  split
  · next ho =>
    have hc : c ≠ p.close := hp c r ho
    split
    · next hl => exact .tooDeep ho hl
    · next hl =>
      refine .later ⟨fun n => ?_, (absurd · hc), fun _ => by omega⟩
      rw [depth_cons, depth_succ_inner, if_pos ho, if_neg hc]
      omega
  · next ho =>
    split
    · next hc =>
      split
      · exact .close hc rfl
      · next i =>
        refine .later ⟨fun n => ?_, fun _ => Nat.succ_ne_zero i, (absurd · ho)⟩
        rw [depth_cons, depth_succ_inner, if_neg ho, if_pos hc]
        omega
    · next hc =>
      refine .later ⟨fun n => ?_, (absurd · hc), (absurd · ho)⟩
      rw [depth_cons, if_neg ho, if_neg hc]
      omega

namespace CountsOn

theorem closesAt_iff (h : CountsOn p limit inner c r inner') :
    ClosesAt p inner (c :: r) n ↔ ∃ m, n = m + 1 ∧ ClosesAt p inner' r m := by
  have hfront : (c :: r)[0]? = some p.close → depth p inner (c :: r) 0 ≠ 1 := by
    intro hc
    have hinner := h.inner_ne (Option.some.inj hc)
    rw [depth_zero]
    omega
  constructor
  · rintro ⟨hclose, hdepth, hfirst⟩
    cases n with
    | zero => exact absurd hdepth (hfront hclose)
    | succ m =>
      refine ⟨m, rfl, hclose, (h.depth_succ m).symm.trans hdepth, fun k hk hkc => ?_⟩
      rw [← h.depth_succ]
      exact hfirst (k + 1) (Nat.succ_lt_succ hk) hkc
  · rintro ⟨m, rfl, hclose, hdepth, hfirst⟩
    refine ⟨hclose, (h.depth_succ m).trans hdepth, fun k hk hkc => ?_⟩
    cases k with
    | zero => exact hfront hkc
    | succ k =>
      rw [h.depth_succ]
      exact hfirst k (Nat.lt_of_succ_lt_succ hk) hkc

theorem tooDeepAt_iff (h : CountsOn p limit inner c r inner') :
    TooDeepAt p limit inner (c :: r) n ↔ ∃ m, n = m + 1 ∧ TooDeepAt p limit inner' r m := by
  constructor
  · rintro ⟨hopens, hdeep, hinside⟩
    rw [h.depth_succ] at hdeep
    cases n with
    | zero =>
      have hroom := h.room hopens
      rw [depth_zero] at hdeep
      omega
    | succ m =>
      refine ⟨m, rfl, hopens, hdeep, fun k hk => ?_⟩
      exact Nat.lt_of_succ_lt_succ (hinside (k + 1) (h.closesAt_iff.2 ⟨k, rfl, hk⟩))
  · rintro ⟨m, rfl, hopens, hdeep, hinside⟩
    refine ⟨hopens, (h.depth_succ (m + 1)).symm ▸ hdeep, fun k hk => ?_⟩
    obtain ⟨k, rfl, hclose⟩ := h.closesAt_iff.1 hk
    exact Nat.succ_lt_succ (hinside k hclose)

private theorem counted_later (h : CountsOn p limit inner c r inner')
    (he : e.Counted p limit inner' r) : e.later.Counted p limit inner (c :: r) := by
  cases e with
  | closed n =>
    refine ⟨h.closesAt_iff.2 ⟨n, rfl, he.1⟩, fun m hm => ?_⟩
    obtain ⟨m, rfl, hdeep⟩ := h.tooDeepAt_iff.1 hm
    exact he.2 m hdeep
  | unclosed =>
    refine ⟨fun n hn => ?_, fun m hm => ?_⟩
    · obtain ⟨n, rfl, hclose⟩ := h.closesAt_iff.1 hn
      exact he.1 n hclose
    · obtain ⟨m, rfl, hdeep⟩ := h.tooDeepAt_iff.1 hm
      exact he.2 m hdeep
  | tooDeep n =>
    refine ⟨h.tooDeepAt_iff.2 ⟨n, rfl, he.1⟩, fun m hmn hm => ?_⟩
    obtain ⟨m, rfl, hdeep⟩ := h.tooDeepAt_iff.1 hm
    exact he.2 m (Nat.lt_of_succ_lt_succ hmn) hdeep

end CountsOn

theorem closesAt_zero (hc : c = p.close) (r : Text) : ClosesAt p 0 (c :: r) 0 where
  close := congrArg some hc
  depth_eq := depth_zero p 0 (c :: r)
  first m hm := absurd hm (Nat.not_lt_zero m)

theorem tooDeepAt_zero (hp : p.Apart) (ho : p.opens c r = true) (hl : limit ≤ inner + 1) :
    TooDeepAt p limit inner (c :: r) 0 where
  opens := ho
  deep := by
    rw [depth_cons, depth_zero, if_pos ho, if_neg (hp c r ho)]
    omega
  inside m hm := by
    refine Nat.pos_of_ne_zero ?_
    rintro rfl
    exact hp c r ho (Option.some.inj hm.close)

theorem counted_extent (hp : p.Apart) (limit inner : Nat) (t : Text) :
    (extent p limit inner t).Counted p limit inner t := by
  -- Behind a character the count goes on from another number of open texts.
  induction t generalizing inner with
  | nil =>
    refine ⟨fun n hn => ?_, fun m hm => ?_⟩
    · cases hn.close
    · cases (opensAt_nil p m).symm.trans hm.opens
  | cons c r ih =>
    have h := counts_extent hp limit inner c r
    generalize extent p limit inner (c :: r) = e at h
    cases h with
    | tooDeep ho hl =>
      exact ⟨tooDeepAt_zero hp ho hl, fun m hm => absurd hm (Nat.not_lt_zero m)⟩
    | close hc hi =>
      subst hi
      have hclose := closesAt_zero hc r
      exact ⟨hclose, fun m hm => Nat.not_lt_zero m (hm.inside 0 hclose)⟩
    | later h => exact h.counted_later (ih _)

theorem ClosesAt.unique {m : Nat} (h : ClosesAt p inner t n) (h' : ClosesAt p inner t m) :
    n = m := by
  rcases Nat.lt_trichotomy n m with hlt | heq | hlt
  · exact absurd h.depth_eq (h'.first n hlt h.close)
  · exact heq
  · exact absurd h'.depth_eq (h.first m hlt h'.close)

theorem ClosesAt.depth_behind (hp : p.Apart) (h : ClosesAt p inner t n) :
    depth p inner t (n + 1) = 0 := by
  rw [depth_close hp h.close, h.depth_eq]
  rfl

theorem Extent.Counted.unique (h : e.Counted p limit inner t) (h' : e'.Counted p limit inner t) :
    e = e' := by
  cases e with
  | closed n =>
    cases e' with
    | closed m => rw [h.1.unique h'.1]
    | unclosed => exact absurd h.1 (h'.1 n)
    | tooDeep m => exact absurd h'.1 (h.2 m)
  | unclosed =>
    cases e' with
    | closed m => exact absurd h'.1 (h.1 m)
    | unclosed => rfl
    | tooDeep m => exact absurd h'.1 (h.2 m)
  | tooDeep n =>
    cases e' with
    | closed m => exact absurd h.1 (h'.2 n)
    | unclosed => exact absurd h.1 (h'.2 n)
    | tooDeep m =>
      rcases Nat.lt_trichotomy n m with hlt | rfl | hlt
      · exact absurd h.1 (h'.2 n hlt)
      · rfl
      · exact absurd h'.1 (h.2 m hlt)

theorem extent_eq_iff (hp : p.Apart) :
    extent p limit inner t = e ↔ e.Counted p limit inner t := by
  constructor
  · rintro rfl
    exact counted_extent hp limit inner t
  · exact (counted_extent hp limit inner t).unique

/-- As far as a nested text reaches, the depth is the number of openings that are open, and never
zero. -/
theorem extent_reached (hp : p.Apart) (hn : n ≤ t.length)
    (hclose : ∀ m, ClosesAt p inner t m → n ≤ m)
    (hdeep : ∀ m, TooDeepAt p limit inner t m → n ≤ m) :
    ∃ k : Nat, depth p inner t n = k + 1 ∧
      extent p limit inner t = Extent.later^[n] (extent p limit k (t.drop n)) := by
  induction n generalizing inner t with
  | zero => exact ⟨inner, depth_zero p inner t, rfl⟩
  | succ n ih =>
    cases t with
    | nil => cases hn
    | cons c r =>
      have h := counts_extent hp limit inner c r
      generalize extent p limit inner (c :: r) = e at h
      cases h with
      | tooDeep ho hl => exact absurd (hdeep 0 (tooDeepAt_zero hp ho hl)) (Nat.not_succ_le_zero n)
      | close hc hi =>
        subst hi
        exact absurd (hclose 0 (closesAt_zero hc r)) (Nat.not_succ_le_zero n)
      | @later inner' h =>
        obtain ⟨k, hk, hextent⟩ := ih (Nat.le_of_succ_le_succ hn)
          (fun m hm => Nat.le_of_succ_le_succ (hclose (m + 1) (h.closesAt_iff.2 ⟨m, rfl, hm⟩)))
          (fun m hm => Nat.le_of_succ_le_succ (hdeep (m + 1) (h.tooDeepAt_iff.2 ⟨m, rfl, hm⟩)))
        refine ⟨k, (h.depth_succ n).trans hk, ?_⟩
        rw [hextent, Function.iterate_succ_apply', List.drop_succ_cons]

end BlueNexus.Nesting
