import BlueNexus.Proofs.ScanStretches

/-!
# Cutting a text where a scan stands

Reading a form looks at what stands behind it, but never so that less of it would change what is
read (`Form.Reads.take`). So a fragment may be cut wherever a scan of it stands: both parts are
scanned as they were in the whole (`scan_cut_where_it_stands`).
-/

namespace BlueNexus

open Text

namespace Name

@[simp] theorem leading?_take (r : Text) (m : Nat) : leading? (r.take (m + 1)) = leading? r := by
  cases r <;> rfl

theorem leading?_take_eq_none {r : Text} (h : leading? r = none) (m : Nat) :
    leading? (r.take m) = none := by
  cases m with
  | zero => rfl
  | succ m => rwa [leading?_take]

end Name

theorem head?_take_ne {r : Text} {c : Char} (h : r.head? ≠ some c) (m : Nat) :
    (r.take m).head? ≠ some c := by
  cases m with
  | zero => simp
  | succ m => cases r <;> exact h

namespace Nesting

/-- Less text behind a character may only keep it from opening a nested one, and only if there is
none. -/
structure Pairing.Near (p : Pairing) : Prop where
  of_take : ∀ {c r m}, p.opens c (r.take m) = true → p.opens c r = true
  take_succ : ∀ {c r m}, p.opens c r = true → p.opens c (r.take (m + 1)) = true

private theorem near_parentheses : parentheses.Near := ⟨id, id⟩

@[simp] theorem blocks_opens_take (c : Char) (r : Text) (m : Nat) :
    blocks.opens c (r.take (m + 1)) = blocks.opens c r := by
  simp only [blocks, Name.leading?_take]

private theorem near_blocks : blocks.Near where
  of_take {c r m} h := by
    cases m with
    | zero => simp [blocks, Name.leading?] at h
    | succ m => rwa [blocks_opens_take] at h
  take_succ h := by rwa [blocks_opens_take]

theorem extent_take {p : Pairing} (hp : p.Near) {limit inner n m : Nat} {t : Text}
    (h : extent p limit inner t = .closed n) (hm : n < m) :
    extent p limit inner (t.take m) = .closed n := by
  -- The close is kept, so an opening before it still has the character that it looks at.
  induction t generalizing inner n m with
  | nil => cases h
  | cons c r ih =>
    obtain ⟨m, rfl⟩ := Nat.exists_eq_add_one_of_ne_zero (Nat.ne_zero_of_lt hm)
    have later : ∀ {i : Nat}, (extent p limit i r).later = .closed n →
        (extent p limit i (r.take m)).later = .closed n := by
      intro i hi
      obtain ⟨k, hk, rfl⟩ := Extent.later_eq_closed hi
      rw [ih hk (Nat.lt_of_succ_lt_succ hm)]
      rfl
    rw [List.take_succ_cons]
    unfold extent at h ⊢
    by_cases ho : p.opens c r = true
    · rw [if_pos ho] at h
      by_cases hl : limit ≤ inner + 1
      · rw [if_pos hl] at h
        cases h
      · rw [if_neg hl] at h
        obtain ⟨k, -, rfl⟩ := Extent.later_eq_closed h
        obtain ⟨m, rfl⟩ := Nat.exists_eq_add_one_of_ne_zero (show m ≠ 0 by omega)
        rw [if_pos (hp.take_succ ho), if_neg hl]
        exact later h
    · have ho' : ¬p.opens c (r.take m) = true := fun h => ho (hp.of_take h)
      rw [if_neg ho] at h
      rw [if_neg ho']
      by_cases hc : c = p.close
      · rw [if_pos hc] at h ⊢
        cases inner with
        | zero => exact h
        | succ i => exact later h
      · rw [if_neg hc] at h ⊢
        exact later h

end Nesting

private theorem Quotation.read?_take {t s : Text} {n m : Nat} (h : read? t = some (s, n))
    (hm : n ≤ m) : read? (t.take m) = some (s, n) := by
  fun_induction read? t generalizing s n m with
  | case1 => cases h
  | case2 r ih =>
    obtain ⟨⟨s', n'⟩, h', he⟩ := Option.map_eq_some_iff.1 h
    cases he
    obtain ⟨k, rfl⟩ := Nat.exists_eq_add_of_le' hm
    simp [read?, ih h' (Nat.le_add_left n' k), ← Nat.add_assoc]
  | case3 r hr =>
    cases h
    obtain ⟨k, rfl⟩ := Nat.exists_eq_add_of_le' hm
    rw [List.take_succ_cons]
    refine read?_quote (head?_take_ne (fun hq => ?_) k)
    obtain ⟨r', rfl⟩ := List.head?_eq_some_iff.1 hq
    exact hr r' rfl
  | case4 c r h₁ h₂ ih =>
    obtain ⟨⟨s', n'⟩, h', he⟩ := Option.map_eq_some_iff.1 h
    cases he
    obtain ⟨k, rfl⟩ := Nat.exists_eq_add_of_le' hm
    simp [read?_cons h₂, ih h' (Nat.le_add_left n' k), ← Nat.add_assoc]

namespace Form

variable {limit offset m : Nat} {breaks : List Nat} {c : Char} {r : Text}

theorem takeWhile_take {p : Char → Bool} (h : (r.takeWhile p).length ≤ m) :
    (r.take m).takeWhile p = r.takeWhile p := by
  rw [← List.take_takeWhile, List.take_of_length_le h]

private theorem digitRun_take {o : Nat} (h : digitRun breaks o r ≤ m) :
    digitRun breaks o (r.take m) = digitRun breaks o r := by
  induction r generalizing o m with
  | nil => simp
  | cons d r ih =>
    rw [digitRun] at h ⊢
    cases m with
    | zero =>
      split at h
      · omega
      · next hd => rw [if_neg hd]; rfl
    | succ m =>
      rw [List.take_succ_cons, digitRun]
      split
      · next hd => rw [ih (by rw [if_pos hd] at h; omega)]
      · rfl

private theorem readExpression_take {x : Name} (h : (readExpression x r).extent ≤ m + 1) :
    readExpression x (r.take m) = readExpression x r := by
  have hle := (List.takeWhile_prefix (p := (· ≠ '<')) (l := r)).length_le
  simp only [readExpression] at h
  have htake : (r.take m).takeWhile (· ≠ '<') = r.takeWhile (· ≠ '<') :=
    takeWhile_take (by omega)
  simp only [readExpression, htake, List.length_take]
  congr 2
  split at h <;> split <;> omega

theorem Reads.take {form : Option Form} {n : Nat}
    (h : Reads limit breaks offset c r (.ok ⟨form, n⟩)) (hm : n ≤ m) :
    Reads limit breaks offset c (r.take m) (.ok ⟨form, n⟩) := by
  cases h with
  | number hc hv =>
    have hrun : digitRun breaks (offset + 1) (r.take m) = digitRun breaks (offset + 1) r :=
      digitRun_take hm
    have htake : (r.take m).take (digitRun breaks (offset + 1) r) =
        r.take (digitRun breaks (offset + 1) r) := by
      rw [List.take_take, Nat.min_eq_left hm]
    rw [← htake, ← hrun] at hv
    rw [← hrun]
    exact .number hc hv
  | string h => exact .string (Quotation.read?_take h hm)
  | debug r =>
    have hread : readDebug (r.take m) = readDebug r := by simp only [readDebug, takeWhile_take hm]
    have hreads : Reads limit breaks offset '_' (r.take m) (.ok (readDebug (r.take m))) := .debug _
    rwa [hread] at hreads
  | rotate x r =>
    obtain ⟨k, rfl⟩ := Nat.exists_eq_add_of_le' hm
    exact .rotate x _
  | nameless h =>
    obtain ⟨k, rfl⟩ := Nat.exists_eq_add_of_le' hm
    exact .nameless (Name.leading?_take_eq_none h k)
  | dot h => exact .dot (head?_take_ne h m)
  | @expression x r h =>
    obtain ⟨k, rfl⟩ : ∃ k, m = k + 1 := ⟨m - 1, by omega⟩
    have hread : readExpression x (r.take k) = readExpression x r := readExpression_take hm
    have hreads : Reads limit breaks offset '>' (x.letter :: r.take k)
        (.ok (readExpression x (r.take k))) := .expression x (head?_take_ne h k)
    rwa [hread] at hreads
  | @block x r n h =>
    obtain ⟨k, rfl⟩ : ∃ k, m = n + 1 + k + 2 := ⟨m - (n + 3), by omega⟩
    have htake : r.take n = (r.take (n + 1 + k)).take n := by
      rw [List.take_take, Nat.min_eq_left (by omega)]
    rw [htake]
    exact .block x (Nesting.extent_take Nesting.near_blocks h (by omega))
  | @openBlock x r h =>
    have hlength : (x.letter :: '<' :: r).length ≤ m := hm
    rw [List.take_of_length_le hlength]
    exact .openBlock x h
  | @drop c param r hc h =>
    obtain ⟨k, rfl⟩ : ∃ k, m = param.length + (k + 1) + 1 := ⟨m - (param.length + 2), by omega⟩
    rw [List.take_succ_cons, List.take_length_add_append, List.take_succ_cons]
    exact .drop hc h
  | @conditional kind predicate r n hk hp h =>
    obtain ⟨k, rfl⟩ : ∃ k, m = kind.length + (predicate.length + (n + 1 + k + 2) + 2) + 1 :=
      ⟨m - (kind.length + predicate.length + n + 6), by omega⟩
    have htake : r.take n = (r.take (n + 1 + k)).take n := by
      rw [List.take_take, Nat.min_eq_left (by omega)]
    rw [List.take_succ_cons, List.take_length_add_append, List.take_succ_cons, List.take_succ_cons,
      List.take_length_add_append, List.take_succ_cons, List.take_succ_cons, htake]
    exact .conditional hk hp (Nesting.extent_take Nesting.near_parentheses h (by omega))
  | comparison h =>
    obtain ⟨k, rfl⟩ := Nat.exists_eq_add_of_le' hm
    exact .comparison h
  | glyph hpair hblock hdrop h =>
    refine .glyph ?_ (fun hc => Name.leading?_take_eq_none (hblock hc) m)
      (fun hc => head?_take_ne (hdrop hc) m) h
    cases m with
    | zero => rfl
    | succ m => cases r <;> exact hpair
  | mention x r => exact .mention x _

/-- But where it is nested too deep, a text that is read as no form is flawed at its front. -/
theorem Reads.offset_eq {e : Fault} (h : Reads limit breaks offset c r (.error e))
    (hdeep : ∀ o l, e ≠ .nestingTooDeep o l) : e.offset = offset := by
  cases h with
  | deepBlock | deepConditional => exact absurd rfl (hdeep _ _)
  | _ => rfl

end Form

namespace Fragment

/-- The fragment up to the place `n`, with all the breaks. -/
def front (n : Nat) (f : Fragment) : Fragment := ⟨f.text.take n, f.offset, f.breaks⟩

variable {limit n p q : Nat} {f : Fragment} {ss : List Stretch}

theorem readAt?_front {x : Form.Reading} (h : f.readAt? limit p = some (.ok x))
    (hn : p + 1 + x.extent ≤ n) : (f.front n).readAt? limit p = some (.ok x) := by
  obtain ⟨c, r, hr, hreads⟩ := reads_of_readAt? h
  obtain ⟨m, rfl⟩ : ∃ m, n = p + (m + 1) := ⟨n - (p + 1), by omega⟩
  have hfront : (f.front (p + (m + 1))).text.drop p = c :: r.take m := by
    rw [front, List.drop_take, Nat.add_sub_cancel_left, hr, List.take_succ_cons]
  have hread := Form.read_eq_of_reads (hreads.take (show x.extent ≤ m by omega))
  simp only [readAt?, hfront]
  exact congrArg some hread

theorem Passes.front (h : f.Passes limit p ss q) (hq : q ≤ n) :
    (f.front n).Passes limit p ss q := by
  induction h with
  | here p => exact .here p
  | step hx h ih => exact .step (readAt?_front hx (h.le.trans hq)) (ih hq)

/-- The text in front of a place where the scan stands has the tokens up to there. -/
theorem Passes.tokens_front (h : f.Passes limit 0 ss p) :
    (f.front p).tokens limit = .ok (ss.filterMap (·.token? f)) := by
  have hend : (f.front p).readAt? limit p = none :=
    readAt?_eq_none_iff.2 (List.length_take_le p f.text)
  have htokens := (h.front (Nat.le_refl p)).tokens_behind
  rw [behind_zero, tokens_behind_of_none hend] at htokens
  rw [htokens]
  exact congrArg Except.ok (List.append_nil _)

end Fragment

open Fragment

/-- Wherever a scan of a fragment stands, whether or not it finds a flaw later, the text in front of
this place has the tokens read so far, and the text behind it has the others, or the fault of the
whole. Where a text is flawed, but for being nested too deep, what stands in front of the flaw has
tokens. -/
theorem scan_cut_where_it_stands (limit : Nat) (f : Fragment) :
    (∀ ss p, f.Passes limit 0 ss p →
      (f.front p).tokens limit = .ok (ss.filterMap (·.token? f)) ∧
      f.tokens limit = ((f.behind p).tokens limit).map (ss.filterMap (·.token? f) ++ ·)) ∧
    ∀ e, f.tokens limit = .error e → (∀ o l, e ≠ .nestingTooDeep o l) →
      ∃ p ts, e.offset = f.offset + p ∧ p < f.text.length ∧ (f.front p).tokens limit = .ok ts := by
  refine ⟨fun ss p h => ⟨h.tokens_front, h.tokens_behind⟩, fun e he hdeep => ?_⟩
  obtain ⟨ss, p, h, hlt, hflaw⟩ := exists_passes_of_error he
  obtain ⟨c, r, -, hreads⟩ := reads_of_readAt? hflaw
  exact ⟨p, _, hreads.offset_eq hdeep, hlt, h.tokens_front⟩

theorem scan_cut_where_it_stands_before_flaw :
    let f : Fragment := ⟨['>', 'a', '+', '1', '<', '.', '$', '"', 'x', '"', '?', '7'], 3, []⟩
    let ss : List Stretch := [⟨some (.expression ⟨'a', rfl⟩ ['+', '1']), 0, 5⟩, ⟨none, 5, 7⟩]
    let us : List Token := [⟨.expression ⟨'a', rfl⟩ ['+', '1'], 3⟩]
    f.Passes 64 0 ss 7 ∧ (f.front 7).tokens 64 = .ok us ∧
      f.tokens 64 = .error (.malformed 13) ∧ (f.behind 7).tokens 64 = .error (.malformed 13) ∧
      ∃ p ts, 13 = 3 + p ∧ (f.front p).tokens 64 = .ok ts := by
  intro f ss us
  have hpasses : f.Passes 64 0 ss 7 :=
    .step (x := ⟨some (.expression ⟨'a', rfl⟩ ['+', '1']), 4⟩) rfl
      (.step (x := ⟨none, 1⟩) rfl (.here 7))
  obtain ⟨hcut, hflaw⟩ := scan_cut_where_it_stands 64 f
  obtain ⟨hfront, hbehind⟩ := hcut ss 7 hpasses
  obtain ⟨p, ts, hp, -, hts⟩ := hflaw (.malformed 13) rfl (by simp)
  exact ⟨hpasses, hfront, rfl, rfl, p, ts, hp, hts⟩

end BlueNexus
